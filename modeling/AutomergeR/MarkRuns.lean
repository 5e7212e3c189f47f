import AutomergeR.FailedMark
import AutomergeR.ReplicaReads

/-! # Runs after a mark that fails

A call of the library opens a transaction before it does anything else. So a mark that fails at
its start leaves no operation, but it can leave a transaction that is open, and the own actor in
the patch log. The transaction is the one that the next call would open. The actor does no harm
where it has a change, or where the log has it already; else a merge can panic later. Where the
mark leaves nothing, every later run is as without the call (`failedMark_run`).
-/

namespace AutomergeR

/-! ## The actors of a document -/

namespace ChangeGraph

variable {H A P : Type} [LinearOrder A] {g g' : ChangeGraph H A P}

theorem actors_cacheClock : ∀ (fuel : ℕ) (g : ChangeGraph H A P) (i : ℕ),
    (cacheClock fuel g i).2.actors = g.actors
  | 0, _, _ => rfl
  | fuel + 1, g, i => by
    have hfold : ∀ (l : List ℕ) (acc : SeqClock A × ChangeGraph H A P),
        (l.foldl (fun (acc : SeqClock A × ChangeGraph H A P) n =>
          (SeqClock.merge acc.1 (cacheClock fuel acc.2 n).1, (cacheClock fuel acc.2 n).2))
          acc).2.actors = acc.2.actors := by
      intro l
      induction l with
      | nil => exact fun _ => rfl
      | cons n l ih =>
        intro acc
        rw [List.foldl_cons, ih]
        exact actors_cacheClock fuel acc.2 n
    exact hfold _ _

variable [DecidableEq H] [ChangeHash H A P] {c : Change H A P}

theorem actors_addChange (h : g.addChange c = some g') : g.actors ⊆ g'.actors := by
  have hpush : g.actors ⊆ (g.pushNode c).actors := by
    unfold pushNode
    dsimp only
    split
    · exact fun _ ha => ha
    · exact List.subset_append_left _ _
  unfold addChange at h
  split at h
  · cases h
    exact fun _ ha => ha
  · split at h
    · dsimp only at h
      split at h
      · cases h
        rw [actors_cacheClock]
        exact hpush
      · cases h
        exact hpush
    · cases h

end ChangeGraph

namespace Automerge

variable {H A P : Type} [DecidableEq H] [LinearOrder A] [ChangeHash H A P] {M : OpSetModel H A P}
  {doc doc' : Automerge M}

theorem actors_updateHistory {c : Change H A P} (h : doc.updateHistory c = some doc') :
    doc.actors ⊆ doc'.actors := by
  obtain ⟨g, hg, heq⟩ := Option.bind_eq_some_iff.mp h
  cases heq
  intro a ha
  exact List.mem_toFinset.mpr (ChangeGraph.actors_addChange hg (List.mem_toFinset.mp ha))

theorem changeGraph_stageChanges (changes : List (Change H A P)) :
    ∀ {doc : Automerge M} {chap : BatchApply H A P} {r},
      doc.stageChanges chap changes = some r → r.1.changeGraph = doc.changeGraph := by
  induction changes with
  | nil =>
    intro doc chap r h
    cases h
    rfl
  | cons c changes ih =>
    intro doc chap r h
    unfold stageChanges at h
    split at h
    · exact ih h
    · split at h
      · cases h
        rfl
      · split at h
        · obtain ⟨chap', -, h⟩ := Option.bind_eq_some_iff.mp h
          exact ih h
        · have hgraph := ih h
          exact hgraph

theorem changeGraph_drainQueue (fuel : ℕ) : ∀ {doc : Automerge M} {chap : BatchApply H A P} {r},
    doc.drainQueue fuel chap = some r → r.1.changeGraph = doc.changeGraph := by
  induction fuel with
  | zero =>
    intro doc chap r h
    cases h
    rfl
  | succ fuel ih =>
    intro doc chap r h
    unfold drainQueue at h
    split at h
    · cases h
      rfl
    · rename_i c doc₁ hpop
      obtain ⟨chap', -, h⟩ := Option.bind_eq_some_iff.mp h
      obtain ⟨i, -, hpop⟩ := Option.bind_eq_some_iff.mp hpop
      obtain ⟨c', -, hpop⟩ := Option.bind_eq_some_iff.mp hpop
      cases hpop
      have hgraph := ih h
      exact hgraph

/-- What is collected leaves the history as it is. -/
theorem changeGraph_collectChanges {changes : List (Change H A P)} {r}
    (h : doc.collectChanges changes = some r) : r.1.changeGraph = doc.changeGraph := by
  unfold collectChanges at h
  split at h
  · cases h
  · rename_i heq
    cases h
    exact changeGraph_stageChanges changes heq
  · rename_i heq
    obtain ⟨r', hr', rfl⟩ := Option.map_eq_some_iff.mp h
    exact (changeGraph_drainQueue _ hr').trans (changeGraph_stageChanges changes heq)

/-- Logs that differ in actors of the document alone come to the same. -/
theorem applyChangesLogPatches_congr {log log' : PatchLog A}
    (h : log.actors ∪ doc.actors = log'.actors ∪ doc.actors) (changes : List (Change H A P)) :
    doc.applyChangesLogPatches log changes = doc.applyChangesLogPatches log' changes := by
  rw [applyChangesLogPatches_collect, applyChangesLogPatches_collect]
  rcases hcollect : doc.collectChanges changes with _ | ⟨staged, chap, err⟩
  · rfl
  · have hgraph : staged.changeGraph = doc.changeGraph := changeGraph_collectChanges hcollect
    have hsub : doc.actors ⊆ staged.insertNewActors chap := by
      unfold insertNewActors actors
      rw [hgraph]
      exact Finset.subset_union_left
    have hbatch : staged.applyBatch log chap = staged.applyBatch log' chap := by
      unfold applyBatch
      rw [PatchLog.migrateActors_congr h hsub]
    dsimp only
    rw [hbatch]

end Automerge

/-! ## The calls of a run -/

section

open Automerge

variable {H A : Type} [LinearOrder H] [LinearOrder A] [ChangeHash H A (Op A)]
  {reconstruct : List (Change H A (Op A)) → OpSet A} {n : ℕ}

namespace AutoCommit

/-- A call of the library that writes. It opens a transaction first; `None` is the panic where the
patch log does not come along. -/
def write (d : AutoCommit (columns (H := H) reconstruct n)) (call : Tx A → Reply A OpError Unit) :
    Option (AutoCommit (columns (H := H) reconstruct n) × Except RError Unit) := do
  let (t, log) ← d.ensureTransactionOpen
  let (tx, reply) := call ⟨d.doc.ops, d.doc.actor, t.startOp + t.pending.length, []⟩
  let doc := { d.doc with ops := tx.ops }
  some (⟨doc, some { t with pending := t.pending ++ tx.pending }, log⟩, reply.mapError .op)

theorem write_cases {d f : AutoCommit (columns (H := H) reconstruct n)}
    {call : Tx A → Reply A OpError Unit} {r : Except RError Unit} (h : d.write call = some (f, r)) :
    ∃ t log tx reply, d.ensureTransactionOpen = some (t, log) ∧
      call ⟨d.doc.ops, d.doc.actor, t.startOp + t.pending.length, []⟩ = (tx, reply) ∧
        f = ⟨{ d.doc with ops := tx.ops }, some { t with pending := t.pending ++ tx.pending }, log⟩ ∧
          r = reply.mapError .op := by
  obtain ⟨⟨t, log⟩, hopen, hwrite⟩ := Option.bind_eq_some_iff.mp h
  obtain ⟨hf, hr⟩ := Prod.mk.inj (Option.some.inj hwrite)
  exact ⟨t, log, _, _, hopen, rfl, hf.symm, hr.symm⟩

/-- A call that writes nothing leaves the transaction it has opened. -/
theorem write_of_unchanged {d : AutoCommit (columns (H := H) reconstruct n)}
    {call : Tx A → Reply A OpError Unit} {t : Transaction (columns (H := H) reconstruct n)}
    {log : PatchLog A} {r : Except OpError Unit} (hopen : d.ensureTransactionOpen = some (t, log))
    (h : call ⟨d.doc.ops, d.doc.actor, t.startOp + t.pending.length, []⟩ =
      (⟨d.doc.ops, d.doc.actor, t.startOp + t.pending.length, []⟩, r)) :
    d.write call = some (⟨d.doc, some t, log⟩, r.mapError .op) := by
  unfold write
  rw [hopen]
  dsimp only [bind, Option.bind]
  rw [h]
  dsimp only
  rw [List.append_nil]

/-- `am_mark_create`. What fails before the library is called opens no transaction. -/
def amMarkCreate (d : AutoCommit (columns (H := H) reconstruct n)) (obj : ObjId A)
    (start stop name value expand : RValue) :
    Option (AutoCommit (columns (H := H) reconstruct n) × Except RError Unit) :=
  match Tx.markArgs start stop name value expand with
  | .ok (i, j, name, value, expand) => d.write fun tx => tx.mark obj i j name value expand
  | .error .abort => none
  | .error e => some (d, .error e)

/-- `am_text_splice`. -/
def amTextSplice (d : AutoCommit (columns (H := H) reconstruct n)) (obj : ObjId A)
    (pos delCount text : RValue) :
    Option (AutoCommit (columns (H := H) reconstruct n) × Except RError Unit) :=
  match Tx.spliceArgs (OpSet.length d.doc.ops obj) pos delCount text with
  | .ok (pos, del, text) => d.write fun tx => tx.spliceText obj pos del text
  | .error e => some (d, .error e)

end AutoCommit

variable (H A reconstruct n) in
/-- A call of a run on a document with texts. -/
inductive TextCall where
  | textSplice (obj : ObjId A) (pos delCount text : RValue)
  | markCreate (obj : ObjId A) (start stop name value expand : RValue)
  | commit
  | save
  /-- another document is merged into this one -/
  | merge (other : AutoCommit (columns (H := H) reconstruct n))
  /-- this document is merged into another one -/
  | mergedInto (target : AutoCommit (columns (H := H) reconstruct n))

namespace AutoCommit

/-- The document after a call, and whether the call raised an error. `None` ends the R process. -/
def textCall (d : AutoCommit (columns (H := H) reconstruct n)) : TextCall H A reconstruct n →
    Option (AutoCommit (columns (H := H) reconstruct n) × Bool)
  | .textSplice obj pos delCount text =>
    (d.amTextSplice obj pos delCount text).map fun x => (x.1, !x.2.toBool)
  | .markCreate obj start stop name value expand =>
    (d.amMarkCreate obj start stop name value expand).map fun x => (x.1, !x.2.toBool)
  | .commit => d.commitWith.map fun d => (d, false)
  | .save => d.ensureTransactionClosed.map fun doc => (closed doc d.patchLog, false)
  | .merge other =>
    match d.amMerge other with
    | .ok (d, _) => some (d, false)
    | .error _ (d, _) => some (d, true)
    | .panic => none
  | .mergedInto target =>
    match target.amMerge d with
    | .ok (_, d) => some (d, false)
    | .error _ (_, d) => some (d, true)
    | .panic => none

def textCalls (d : AutoCommit (columns (H := H) reconstruct n)) :
    List (TextCall H A reconstruct n) → Option (AutoCommit (columns (H := H) reconstruct n))
  | [] => some d
  | call :: calls => (d.textCall call).bind fun (d, _) => d.textCalls calls

/-- A transaction leaves no new actor in the patch log: one is open, or the actor has a change, or
is in the log already. -/
def OpensQuietly (d : AutoCommit (columns (H := H) reconstruct n)) : Prop :=
  d.transaction.isSome = true ∨ d.doc.actor ∈ d.patchLog.actors ∪ d.doc.actors

/-- `am_mark_create` leaves nothing behind if it fails: its arguments fail their checks, or it does
not overshoot, and opens no transaction, or opens it quietly, if it does not start in a text. -/
def LeavesNothing (d : AutoCommit (columns (H := H) reconstruct n)) (obj : ObjId A)
    (start stop name value expand : RValue) : Prop :=
  ∀ args, Tx.markArgs start stop name value expand = .ok args →
    OpSet.markOvershoots d.doc.ops obj args.1 args.2.1 = false ∧
      (OpSet.markStarts d.doc.ops obj args.1 = true ∨ d.OpensQuietly)

/-- The marks, the marks at every position and the text of every object are the same. -/
def SameTexts (e e' : AutoCommit (columns (H := H) reconstruct n)) : Prop :=
  ∀ obj, OpSet.marks e.doc.ops obj = OpSet.marks e'.doc.ops obj ∧
    (∀ pos, OpSet.marksAt e.doc.ops obj pos = OpSet.marksAt e'.doc.ops obj pos) ∧
      OpSet.text e.doc.ops obj = OpSet.text e'.doc.ops obj

end AutoCommit

/-! ## With the mark that failed, and without it -/

theorem rel_bind {α β γ δ : Type*} {R : α → β → Prop} {S : γ → δ → Prop} {x : Option α} {y : Option β}
    {f : α → Option γ} {g : β → Option δ} (h : Option.Rel R x y)
    (hfg : ∀ a b, R a b → Option.Rel S (f a) (g b)) : Option.Rel S (x.bind f) (y.bind g) := by
  cases h with
  | some h => exact hfg _ _ h
  | none => exact .none

theorem rel_map {α β γ δ : Type*} {R : α → β → Prop} {S : γ → δ → Prop} {x : Option α} {y : Option β}
    {f : α → γ} {g : β → δ} (h : Option.Rel R x y) (hfg : ∀ a b, R a b → S (f a) (g b)) :
    Option.Rel S (x.map f) (y.map g) := by
  cases h with
  | some h => exact .some (hfg _ _ h)
  | none => exact .none

theorem rel_mono {α β : Type*} {R S : α → β → Prop} {x : Option α} {y : Option β}
    (h : Option.Rel R x y) (hRS : ∀ a b, R a b → S a b) : Option.Rel S x y := by
  cases h with
  | some h => exact .some (hRS _ _ h)
  | none => exact .none

variable {e e' : AutoCommit (columns (H := H) reconstruct n)}

/-- The first document is the second one, but for a transaction that the next call would open, and
for actors in the patch log that the document knows. -/
structure Alike (e e' : AutoCommit (columns (H := H) reconstruct n)) : Prop where
  doc : e.doc = e'.doc
  transaction : e.transaction = e'.transaction ∨ e'.transaction = none ∧
    ∃ t, e.transaction = some t ∧ e.doc.transactionArgs = some t ∧
      e.doc.actor ∈ e.patchLog.actors ∪ e.doc.actors ∧
        e.patchLog.Fits (insert e.doc.actor e.doc.actors)
  log : e.patchLog.actors ∪ e.doc.actors = e'.patchLog.actors ∪ e.doc.actors

namespace Alike

theorem refl (e : AutoCommit (columns (H := H) reconstruct n)) : Alike e e := ⟨rfl, Or.inl rfl, rfl⟩

theorem closed {doc : Automerge (columns (H := H) reconstruct n)} {log log' : PatchLog A}
    (h : log.actors ∪ doc.actors = log'.actors ∪ doc.actors) :
    Alike (AutoCommit.closed doc log) (AutoCommit.closed doc log') := ⟨rfl, Or.inl rfl, h⟩

theorem closed_of_subset {known doc : Automerge (columns (H := H) reconstruct n)}
    {log log' : PatchLog A} (h : log.actors ∪ known.actors = log'.actors ∪ known.actors)
    (hsub : known.actors ⊆ doc.actors) :
    Alike (AutoCommit.closed doc log) (AutoCommit.closed doc log') := by
  refine closed ?_
  rw [← Finset.union_eq_right.mpr hsub, ← Finset.union_assoc, h, Finset.union_assoc]

/-- The same transaction is opened. -/
theorem ensureTransactionOpen (h : Alike e e') :
    Option.Rel (fun x y => x.1 = y.1 ∧ x.2.actors ∪ e.doc.actors = y.2.actors ∪ e.doc.actors)
      e.ensureTransactionOpen e'.ensureTransactionOpen := by
  unfold AutoCommit.ensureTransactionOpen
  rw [← h.doc]
  rcases h.transaction with heq | ⟨hnone, t, ht, hargs, hown, hfit⟩
  · rw [← heq]
    cases e.transaction with
    | some t => exact .some ⟨rfl, h.log⟩
    | none =>
      dsimp only
      rw [PatchLog.migrateActors_congr h.log (Finset.subset_insert e.doc.actor e.doc.actors)]
      cases e.doc.transactionArgs with
      | none => exact .none
      | some t =>
        cases e'.patchLog.migrateActors (insert e.doc.actor e.doc.actors) with
        | none => exact .none
        | some log => exact .some ⟨rfl, rfl⟩
  · have hfit' : e'.patchLog.Fits (insert e.doc.actor e.doc.actors) :=
      (PatchLog.fits_congr h.log (Finset.subset_insert _ _)).mp hfit
    rw [ht, hnone, hargs]
    dsimp only [bind, Option.bind]
    rw [PatchLog.migrateActors_eq_some.mpr ⟨hfit', rfl⟩]
    refine .some ⟨rfl, ?_⟩
    show e.patchLog.actors ∪ e.doc.actors =
      e'.patchLog.actors ∪ insert e.doc.actor e.doc.actors ∪ e.doc.actors
    rw [Finset.union_insert, Finset.insert_union, ← h.log, Finset.union_assoc, Finset.union_self,
      Finset.insert_eq_of_mem hown]

theorem ensureTransactionClosed (h : Alike e e') :
    e.ensureTransactionClosed = e'.ensureTransactionClosed := by
  unfold AutoCommit.ensureTransactionClosed AutoCommit.pendingChange
  rw [← h.doc]
  rcases h.transaction with heq | ⟨hnone, t, ht, hargs, -⟩
  · rw [← heq]
  · rw [ht, hnone]
    dsimp only
    rw [(pending_transactionArgs hargs).1]
    rfl

theorem write (h : Alike e e') (call : Tx A → Reply A OpError Unit) :
    Option.Rel (fun x y => Alike x.1 y.1 ∧ x.2 = y.2) (e.write call) (e'.write call) := by
  unfold AutoCommit.write
  rw [← h.doc]
  refine rel_bind h.ensureTransactionOpen fun x y hxy => ?_
  obtain ⟨t, log⟩ := x
  obtain ⟨t', log'⟩ := y
  obtain ⟨rfl, hlog⟩ := hxy
  exact .some ⟨⟨rfl, Or.inl rfl, hlog⟩, rfl⟩

/-- A commit keeps the actors. -/
theorem actors_ensureTransactionClosed {d : AutoCommit (columns (H := H) reconstruct n)}
    {doc : Automerge (columns (H := H) reconstruct n)} (h : d.ensureTransactionClosed = some doc) :
    d.doc.actors ⊆ doc.actors := by
  unfold AutoCommit.ensureTransactionClosed at h
  split at h
  · cases h
    exact Finset.Subset.refl _
  · exact actors_updateHistory h

theorem commitWith (h : Alike e e') : Option.Rel Alike e.commitWith e'.commitWith := by
  unfold AutoCommit.commitWith
  refine rel_bind h.ensureTransactionOpen fun x y hxy => ?_
  obtain ⟨t, log⟩ := x
  obtain ⟨t', log'⟩ := y
  obtain ⟨rfl, hlog⟩ := hxy
  have halike : Alike { e with transaction := some t } { e' with transaction := some t } :=
    ⟨h.doc, Or.inl rfl, h.log⟩
  dsimp only
  rw [← halike.ensureTransactionClosed]
  cases hdoc : ({ e with transaction := some t } :
      AutoCommit (columns (H := H) reconstruct n)).ensureTransactionClosed with
  | none => exact .none
  | some doc =>
    have hsub : e.doc.actors ⊆ doc.actors :=
      actors_ensureTransactionClosed (d := { e with transaction := some t }) hdoc
    exact .some (closed_of_subset hlog hsub)

theorem amMerge (h : Alike e e') (other : AutoCommit (columns (H := H) reconstruct n)) :
    e.amMerge other = e'.amMerge other := by
  unfold AutoCommit.amMerge
  rw [← h.ensureTransactionClosed]
  cases hdoc : e.ensureTransactionClosed with
  | none => rfl
  | some doc =>
    have hsub := actors_ensureTransactionClosed hdoc
    have hlog : e.patchLog.actors ∪ doc.actors = e'.patchLog.actors ∪ doc.actors := by
      rw [← Finset.union_eq_right.mpr hsub, ← Finset.union_assoc, h.log, Finset.union_assoc]
    cases other.ensureTransactionClosed with
    | none => rfl
    | some odoc =>
      dsimp only
      unfold mergeAndLogPatches
      cases doc.getChangesAdded odoc with
      | none => rfl
      | some changes =>
        dsimp only
        rw [applyChangesLogPatches_congr hlog]

/-- **A call does the same**, and raises an error where it does. -/
theorem textCall (h : Alike e e') (call : TextCall H A reconstruct n) :
    Option.Rel (fun x y => Alike x.1 y.1 ∧ x.2 = y.2) (e.textCall call) (e'.textCall call) := by
  have hmap : ∀ {x y : Option (AutoCommit (columns (H := H) reconstruct n) × Except RError Unit)},
      Option.Rel (fun x y => Alike x.1 y.1 ∧ x.2 = y.2) x y →
        Option.Rel (fun x y => Alike x.1 y.1 ∧ x.2 = y.2) (x.map fun x => (x.1, !x.2.toBool))
          (y.map fun x => (x.1, !x.2.toBool)) :=
    fun hxy => rel_map hxy fun _ _ h => ⟨h.1, congrArg (fun r => !r.toBool) h.2⟩
  cases call with
  | textSplice obj pos delCount text =>
    refine hmap ?_
    unfold AutoCommit.amTextSplice
    rw [← h.doc]
    cases Tx.spliceArgs (OpSet.length e.doc.ops obj) pos delCount text with
    | ok args => exact h.write _
    | error err => exact .some ⟨h, rfl⟩
  | markCreate obj start stop name value expand =>
    refine hmap ?_
    unfold AutoCommit.amMarkCreate
    cases Tx.markArgs start stop name value expand with
    | ok args => exact h.write _
    | error err =>
      cases err with
      | abort => exact .none
      | stop | op | invalidPos | invalidUtf8 => exact .some ⟨h, rfl⟩
  | commit => exact rel_map h.commitWith fun _ _ halike => ⟨halike, rfl⟩
  | save =>
    show Option.Rel _ (e.ensureTransactionClosed.map _) (e'.ensureTransactionClosed.map _)
    rw [← h.ensureTransactionClosed]
    cases hdoc : e.ensureTransactionClosed with
    | none => exact .none
    | some doc =>
      exact .some ⟨closed_of_subset h.log (actors_ensureTransactionClosed hdoc), rfl⟩
  | merge other =>
    unfold AutoCommit.textCall
    dsimp only
    rw [h.amMerge other]
    cases e'.amMerge other with
    | ok r => exact .some ⟨.refl _, rfl⟩
    | error err r => exact .some ⟨.refl _, rfl⟩
    | panic => exact .none
  | mergedInto target =>
    unfold AutoCommit.textCall AutoCommit.amMerge
    dsimp only
    rw [← h.ensureTransactionClosed]
    cases target.ensureTransactionClosed with
    | none => exact .none
    | some doc =>
      cases hodoc : e.ensureTransactionClosed with
      | none => exact .none
      | some odoc =>
        have halike := closed_of_subset h.log (actors_ensureTransactionClosed hodoc)
        dsimp only
        cases doc.mergeAndLogPatches odoc target.patchLog with
        | ok r => exact .some ⟨halike, rfl⟩
        | error err r => exact .some ⟨halike, rfl⟩
        | panic => exact .none

/-- **A mark that fails and leaves nothing** might as well not have been made. -/
theorem of_failed (h : Alike e e') {obj : ObjId A} {start stop name value expand : RValue}
    {f : AutoCommit (columns (H := H) reconstruct n)}
    (hleaves : e.LeavesNothing obj start stop name value expand)
    (hcall : e.textCall (.markCreate obj start stop name value expand) = some (f, true)) :
    Alike f e' := by
  obtain ⟨⟨_, reply⟩, hmark, heq⟩ := Option.map_eq_some_iff.mp hcall
  obtain ⟨rfl, hfailed⟩ := Prod.mk.inj heq
  unfold AutoCommit.amMarkCreate at hmark
  cases hargs : Tx.markArgs start stop name value expand with
  | error err =>
    rw [hargs] at hmark
    cases err with
    | abort => cases hmark
    | stop | op | invalidPos | invalidUtf8 =>
      cases hmark
      exact h
  | ok args =>
    obtain ⟨i, j, name, value, expand⟩ := args
    rw [hargs] at hmark
    obtain ⟨hover, hquiet⟩ := hleaves _ hargs
    obtain ⟨t, log, tx, reply, hopen, htx, rfl, rfl⟩ := AutoCommit.write_cases hmark
    obtain ⟨err, rfl⟩ : ∃ err, reply = .error err := by
      cases reply with
      | ok u => cases hfailed
      | error err => exact ⟨err, rfl⟩
    obtain ⟨rfl, hstarts⟩ := Tx.mark_error hover htx
    dsimp only
    rw [List.append_nil]
    rcases AutoCommit.ensureTransactionOpen_cases hopen with ⟨ht, rfl⟩ | ⟨hnone, hnew, hmigrate⟩
    · exact ⟨h.doc, by rw [← ht]; exact h.transaction, h.log⟩
    · -- the transaction is opened for nothing
      have hown : e.doc.actor ∈ e.patchLog.actors ∪ e.doc.actors := by
        rcases hquiet with hstart | hopened | hown
        · exact absurd (hstart.symm.trans hstarts) (by decide)
        · rw [hnone] at hopened
          cases hopened
        · exact hown
      have hnone' : e'.transaction = none := by
        rcases h.transaction with heq | ⟨hnone', -⟩
        · rw [← heq, hnone]
        · exact hnone'
      obtain ⟨hfit, rfl⟩ := PatchLog.migrateActors_eq_some.mp hmigrate
      refine ⟨h.doc, Or.inr ⟨hnone', t, rfl, hnew, ?_, fun a ha hna => hfit a ?_ hna⟩, ?_⟩
      · exact Finset.mem_union_left _ (Finset.mem_union_right _ (Finset.mem_insert_self _ _))
      · exact (Finset.mem_union.mp ha).resolve_right hna
      · show e.patchLog.actors ∪ insert e.doc.actor e.doc.actors ∪ e.doc.actors = _
        rw [Finset.union_insert, Finset.insert_union, Finset.union_assoc, Finset.union_self,
          Finset.insert_eq_of_mem hown, h.log]

/-- A run goes on in the same way. -/
theorem textCalls (calls : List (TextCall H A reconstruct n)) :
    ∀ {e e' : AutoCommit (columns (H := H) reconstruct n)}, Alike e e' →
      Option.Rel Alike (e.textCalls calls) (e'.textCalls calls) := by
  induction calls with
  | nil => exact fun h => .some h
  | cons call calls ih => exact fun h => rel_bind (h.textCall call) fun _ _ halike => ih halike.1

theorem sameTexts (h : Alike e e') : e.SameTexts e' := by
  intro obj
  rw [h.doc]
  exact ⟨rfl, fun _ => rfl, rfl⟩

end Alike

/-- **A mark that fails leaves nothing**, unless it overshoots or leaves its actor in the patch log:
a later run ends R or not, and shows the same texts and marks, as without the call. -/
theorem failedMark_run {d f : AutoCommit (columns (H := H) reconstruct n)} {obj : ObjId A}
    {start stop name value expand : RValue} (h : d.LeavesNothing obj start stop name value expand)
    (hfailed : d.textCall (.markCreate obj start stop name value expand) = some (f, true))
    (calls : List (TextCall H A reconstruct n)) :
    Option.Rel AutoCommit.SameTexts (f.textCalls calls) (d.textCalls calls) := by
  exact rel_mono (((Alike.refl d).of_failed h hfailed).textCalls calls) fun _ _ halike =>
    halike.sameTexts

/-! ## Merges -/

theorem textCalls_merge {d other merged r : AutoCommit (columns (H := H) reconstruct n)}
    (h : d.amMerge other = .ok (merged, r)) : d.textCalls [.merge other] = some merged := by
  simp only [AutoCommit.textCalls, AutoCommit.textCall, h, Option.bind_some]

/-- A merge that goes through with no patch log ends R with one that does not fit. -/
theorem AutoCommit.amMerge_panic {doc merged : Automerge (columns (H := H) reconstruct n)}
    {d other r : AutoCommit (columns (H := H) reconstruct n)} {log : PatchLog A} (hwf : doc.WF)
    (ho : Replica other) (hqo : other.doc.queue = []) (hclosed : d.ensureTransactionClosed = some doc)
    (hmerge : (AutoCommit.ofDoc doc).amMerge other = .ok (.closed merged log, r))
    (hno : ¬ d.patchLog.Fits merged.actors) : d.amMerge other = .panic := by
  obtain ⟨odoc, hoclosed, howf, -⟩ := exists_closed ho.reachable (AutoCommit.fresh_of_queue_nil hqo)
  obtain ⟨cs, hadded, -, hcs⟩ := getChangesAdded_spec hwf howf
  have hhonest : ∀ c ∈ cs, c.Honest := fun c hc => howf.honest c (Or.inl ((hcs c).mp hc).1)
  unfold AutoCommit.amMerge mergeAndLogPatches at hmerge ⊢
  rw [AutoCommit.ensureTransactionClosed_ofDoc, hoclosed] at hmerge
  rw [hclosed, hoclosed]
  dsimp only at hmerge ⊢
  rw [hadded] at hmerge ⊢
  dsimp only at hmerge ⊢
  cases hcall : doc.applyChangesLogPatches (AutoCommit.ofDoc doc).patchLog cs with
  | panic =>
    rw [hcall] at hmerge
    cases hmerge
  | error err x =>
    rw [hcall] at hmerge
    cases hmerge
  | ok x =>
    obtain ⟨doc', log'⟩ := x
    rw [hcall] at hmerge
    cases hmerge
    have happ := ((applyChangesLogPatches_iff hwf hhonest).mp
      (show doc.applyChangesLogPatches _ cs = .after none (doc', log') from hcall)).1
    rw [applyChangesLogPatches_panic hwf hhonest happ hno]
    rfl

end

/-! ## Marks of a text `"abc"` -/

open Automerge

/-- The text is put under the key `"t"`. -/
def putAbc : Tx.Call ℕ :=
  .put none (.character [] [.lit "t"]) (.character ["am_text_type", "character"] [.lit "abc"])

/-- The text -/
def abcText : ObjId ℕ := some (.new 1 1)

/-- `am_mark_create(text, start, stop, "bold", TRUE)` -/
def boldMark (start stop : Int32) : TextCall ByteHash ℕ (fun _ => OpSet.new) 4 :=
  .markCreate abcText (.integer [] [start]) (.integer [] [stop]) (.character [] [.lit "bold"])
    (.logical [] [some true]) (.character [] [.lit "none"])

/-- The end lies beyond the text: the call fails, and the rest of the text is marked. -/
theorem failedMark_leaves_mark : Replica (callReplica 1 putAbc) ∧
    OpSet.text (A := ℕ) (callReplica 1 putAbc).doc.ops abcText = "abc" ∧
      OpSet.marks (A := ℕ) (callReplica 1 putAbc).doc.ops abcText = [] ∧
        ∃ d, (callReplica 1 putAbc).textCall (boldMark 1 10) = some (d, true) ∧
          OpSet.marks (A := ℕ) d.doc.ops abcText = [⟨1, 3, "bold", .boolean true⟩] := by
  refine ⟨callReplica_replica 1 putAbc, by decide +kernel, by decide +kernel, _, rfl, ?_⟩
  decide +kernel

/-- The columns of the document with the text -/
def abcOps : OpSet ℕ := (Tx.call ⟨OpSet.new, 1, 1, []⟩ putAbc).ops

theorem exists_abc : ∃ (doc : Automerge byteColumns) (c : Change ByteHash ℕ (Op ℕ)),
    Replica (.ofDoc doc) ∧ doc.queue = [] ∧ doc.changeGraph.changes = [c] ∧ c.actor = 1 ∧
      doc.ops = abcOps ∧ doc.actor = 1 := by
  obtain ⟨doc, c, hd, hq, hch, ha, -, -, hops, -, hactor, -⟩ :=
    (Replica.create 1 : Replica (.ofDoc (Automerge.new byteColumns 1))).exists_committed rfl putAbc []
      rfl (by decide +kernel)
  exact ⟨doc, c, hd, hq, hch, ha, hops, hactor⟩

theorem markArgs_bold : Tx.markArgs (.integer [] [5]) (.integer [] [6]) (.character [] [.lit "bold"])
    (.logical [] [some true]) (.character [] [.lit "none"]) =
      .ok (5, 6, "bold", .boolean true, ⟨false, false⟩) := by
  decide +kernel

/-- The text ends before position 5: the call fails and leaves a transaction. -/
theorem mark_abc {tx : Tx ℕ} (h : tx.ops = abcOps) :
    ∃ err, tx.mark abcText 5 6 "bold" (.boolean true) ⟨false, false⟩ = (tx, .error err) := by
  cases tx
  cases h
  exact ⟨_, rfl⟩

theorem textCall_boldMark {doc : Automerge byteColumns} (hd : Replica (.ofDoc doc))
    (hops : doc.ops = abcOps) :
    ∃ t, (AutoCommit.ofDoc doc).textCall (boldMark 5 6) =
        some (⟨doc, some t, ⟨insert doc.actor doc.actors⟩⟩, true) ∧
      doc.transactionArgs = some t ∧
        Replica ⟨doc, some t, ⟨insert doc.actor doc.actors⟩⟩ := by
  obtain ⟨t, ht, -⟩ := transactionArgs_spec hd.wf
  have hopen : (AutoCommit.ofDoc doc).ensureTransactionOpen =
      some (t, ⟨insert doc.actor doc.actors⟩) := by
    simp only [AutoCommit.ensureTransactionOpen, AutoCommit.ofDoc, AutoCommit.closed, ht,
      PatchLog.migrateActors_inactive, Option.bind_eq_bind, Option.bind_some]
  let tx : Tx ℕ := ⟨doc.ops, doc.actor, t.startOp + t.pending.length, []⟩
  obtain ⟨err, herr⟩ : ∃ err, tx.mark abcText 5 6 "bold" (.boolean true) ⟨false, false⟩ =
    (tx, .error err) := mark_abc hops
  refine ⟨t, ?_, ht, hd.edit (.markCreate abcText (.integer [] [5]) (.integer [] [6])
    (.character [] [.lit "bold"]) (.logical [] [some true]) (.character [] [.lit "none"])) ?_⟩
  · have hwrite : (AutoCommit.ofDoc doc).write
        (fun tx => tx.mark abcText 5 6 "bold" (.boolean true) ⟨false, false⟩) =
          some (⟨doc, some t, ⟨insert doc.actor doc.actors⟩⟩, .error (.op err)) :=
      AutoCommit.write_of_unchanged (r := .error err) hopen herr
    show ((AutoCommit.ofDoc doc).amMarkCreate _ _ _ _ _ _).map _ = _
    unfold AutoCommit.amMarkCreate
    rw [markArgs_bold]
    dsimp only
    rw [hwrite]
    rfl
  · have hcall : tx.call (.markCreate abcText (.integer [] [5]) (.integer [] [6])
        (.character [] [.lit "bold"]) (.logical [] [some true]) (.character [] [.lit "none"])) = tx := by
      show (tx.amMarkCreate _ _ _ _ _ _).1 = tx
      rw [Tx.amMarkCreate_eq, markArgs_bold]
      dsimp only
      rw [herr]
      rfl
    simp only [AutoCommit.edit, hopen, Option.bind_eq_bind, Option.bind_some]
    show some (⟨{ doc with ops := (tx.call (.markCreate _ _ _ _ _ _)).ops }, some { t with
      pending := t.pending ++ (tx.call (.markCreate _ _ _ _ _ _)).pending }, _⟩ :
        AutoCommit byteColumns) = _
    rw [hcall, List.append_nil]

/-- A document with this text alone, whose log has no other actor, is merged with another. -/
theorem exists_abcMerge {d : AutoCommit byteColumns} {c : Change ByteHash ℕ (Op ℕ)} (h : Replica d)
    (hq : d.doc.queue = []) (hchanges : d.changes = [c]) (ha : c.actor = 1)
    (hlog : d.patchLog.actors ⊆ {1}) :
    ∃ merged log odoc, d.amMerge (putReplica 3) = .ok (.closed merged log, .closed odoc ⟨{3}⟩) ∧
      merged.WF ∧ merged.actors = {1, 3} := by
  obtain ⟨merged, log, odoc, hmerge, hm, happ⟩ := h.exists_merged (putReplica_replica 3) hq rfl
    (fun a hmem => ⟨c, by rw [hchanges]; exact List.mem_singleton_self c,
      ha.trans (Finset.mem_singleton.mp (hlog hmem)).symm⟩)
    (fun c₁ h₁ c₂ h₂ hactor _ => by
      rw [Set.mem_ofPred_eq, hchanges, putReplica_changes, List.mem_singleton,
        List.mem_singleton] at h₁ h₂
      rcases h₁ with rfl | rfl <;> rcases h₂ with rfl | rfl
      · rfl
      · cases ha.symm.trans hactor
      · cases hactor.trans ha
      · rfl)
  refine ⟨merged, log, odoc, hmerge, hm.wf, Finset.ext fun a => ?_⟩
  simp only [mem_actors hm.wf.graph, mem_changes_iff, happ, hchanges, putReplica_changes,
    Set.mem_union, mem_hashesOf, List.mem_singleton, Finset.mem_insert, Finset.mem_singleton]
  constructor
  · rintro ⟨c', rfl | rfl, rfl⟩
    · exact Or.inl ha
    · exact Or.inr rfl
  · rintro (rfl | rfl)
    · exact ⟨c, Or.inl rfl, ha⟩
    · exact ⟨_, Or.inr rfl, rfl⟩

/-- The text has three characters: the call fails at its start, and is of no account for the merge. -/
theorem failedMark_run_merge : ∃ (doc : Automerge byteColumns) (f e e' : AutoCommit byteColumns),
    Replica (.ofDoc doc) ∧ OpSet.text (A := ℕ) doc.ops abcText = "abc" ∧
      (AutoCommit.ofDoc doc).textCall (boldMark 5 6) = some (f, true) ∧
        f.textCalls [.merge (putReplica 3)] = some e ∧
          (AutoCommit.ofDoc doc).textCalls [.merge (putReplica 3)] = some e' ∧ e.SameTexts e' := by
  obtain ⟨doc, c, hd, hq, hch, ha, hops, hactor⟩ := exists_abc
  obtain ⟨t, hcall, ht, hrep⟩ := textCall_boldMark hd hops
  have hown : doc.actor ∈ doc.actors := (mem_actors hd.wf.graph).mpr
    ⟨c, by rw [hch]; exact List.mem_singleton_self c, ha.trans hactor.symm⟩
  have hchanges : (⟨doc, some t, ⟨insert doc.actor doc.actors⟩⟩ : AutoCommit byteColumns).changes =
      [c] := by
    unfold AutoCommit.changes AutoCommit.pendingChange
    dsimp only
    rw [(pending_transactionArgs ht).1, hch]
    rfl
  obtain ⟨merged, log, odoc, hmerge, -⟩ := exists_abcMerge hrep hq hchanges ha (fun a hmem => by
    rw [Finset.insert_eq_of_mem hown] at hmem
    obtain ⟨c', hc', rfl⟩ := (mem_actors hd.wf.graph).mp hmem
    rw [hch, List.mem_singleton] at hc'
    rw [hc', ha]
    exact Finset.mem_singleton_self _)
  have hleaves : (AutoCommit.ofDoc doc).LeavesNothing abcText (.integer [] [5]) (.integer [] [6])
      (.character [] [.lit "bold"]) (.logical [] [some true]) (.character [] [.lit "none"]) := by
    intro args hargs
    cases markArgs_bold.symm.trans hargs
    refine ⟨?_, Or.inr (Or.inr (Finset.mem_union_right _ hown))⟩
    show OpSet.markOvershoots (A := ℕ) doc.ops abcText 5 6 = false
    rw [hops]
    decide +kernel
  have hrun := textCalls_merge hmerge
  have hruns := failedMark_run hleaves hcall [.merge (putReplica 3)]
  rw [hrun] at hruns
  cases he' : (AutoCommit.ofDoc doc).textCalls [.merge (putReplica 3)] with
  | none =>
    rw [he'] at hruns
    cases hruns
  | some e' =>
    rw [he'] at hruns
    cases hruns with
    | some hsame =>
      refine ⟨doc, _, _, e', hd, ?_, hcall, hrun, he', hsame⟩
      rw [hops]
      decide +kernel

/-- Actor 2 has no change in the document, and is left in the log: where the merge brings actor 3 it
ends R, and without the call it goes through. -/
theorem failedMark_stops_merge : ∃ (doc : Automerge byteColumns) (f e : AutoCommit byteColumns),
    Replica (.ofDoc doc) ∧ OpSet.markOvershoots (A := ℕ) doc.ops abcText 5 6 = false ∧
      (AutoCommit.ofDoc doc).textCall (boldMark 5 6) = some (f, true) ∧
        f.textCalls [.merge (putReplica 3)] = none ∧
          (AutoCommit.ofDoc doc).textCalls [.merge (putReplica 3)] = some e := by
  obtain ⟨doc₁, c, h₁, hq, hch, ha, hops, -⟩ := exists_abc
  let doc := doc₁.setActor 2
  have hd : Replica (.ofDoc doc) := h₁.setActor 2
  obtain ⟨t, hcall, ht, -⟩ := textCall_boldMark hd hops
  obtain ⟨merged, log, odoc, hmerge, -, hactors⟩ := exists_abcMerge (c := c) hd hq
    (by show doc₁.changeGraph.changes ++ [] = _; rw [hch]; rfl) ha (Finset.empty_subset _)
  have hclosed : (⟨doc, some t, ⟨insert doc.actor doc.actors⟩⟩ :
      AutoCommit byteColumns).ensureTransactionClosed = some doc := by
    unfold AutoCommit.ensureTransactionClosed AutoCommit.pendingChange
    dsimp only
    rw [(pending_transactionArgs ht).1]
    rfl
  have hno : ¬ (⟨insert doc.actor doc.actors⟩ : PatchLog ℕ).Fits merged.actors := by
    intro hfit
    rw [hactors] at hfit
    exact absurd (hfit 2 (Finset.mem_insert_self _ _) (by decide) 3 (by decide)) (by decide)
  have hpanic := AutoCommit.amMerge_panic hd.wf (putReplica_replica 3) rfl hclosed hmerge hno
  refine ⟨doc, _, .closed merged log, hd, ?_, hcall, ?_, textCalls_merge hmerge⟩
  · show OpSet.markOvershoots (A := ℕ) doc₁.ops abcText 5 6 = false
    rw [hops]
    decide +kernel
  · simp only [AutoCommit.textCalls, AutoCommit.textCall, hpanic, Option.bind_none]

end AutomergeR
