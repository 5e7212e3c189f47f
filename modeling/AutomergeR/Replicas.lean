import AutomergeR.Columns
import AutomergeR.Reachable

/-! # Replicas over columns

Documents over the columns that the package's calls make, from fresh ones by edits, commits,
rollbacks, changes of actor, and changes made by other replicas, in any order and with any
repetitions; loading a saved document is left out, and what a patch log holds is left open.
In each of them the columns record the log of its changes and of its open transaction
(`Replica.kept`): nothing is lost, nothing is there twice, and two replicas with the same
heads read the same.
-/

namespace AutomergeR

/-! ## The greatest counter -/

namespace Automerge

variable {H A P : Type} [DecidableEq H] [LinearOrder A] [ChangeHash H A P] {M : OpSetModel H A P} {doc doc' : Automerge M}
  {chap changes : List (Change H A P)}

/-- `max_op` is behind no change. -/
def Bounded (doc : Automerge M) : Prop := ∀ c ∈ doc.changeGraph.changes, c.maxOp ≤ doc.maxOp

theorem bounded_foldlM : ∀ (chap : List (Change H A P)) {doc : Automerge M}, doc.changeGraph.WF →
    doc.deps = doc.changeGraph.heads → Deliverable doc.applied chap → doc.Bounded →
      ∀ {doc'}, chap.foldlM updateHistory doc = some doc' → doc'.Bounded
  | [], doc, _, _, _, hb, doc', h => by
    cases h
    exact hb
  | c :: chap, doc, hg, hd, ⟨hnew, _, hrest⟩, hb, doc', h => by
    rw [List.foldlM_cons, Option.bind_eq_bind, Option.bind_eq_some_iff] at h
    obtain ⟨doc₁, h₁, h⟩ := h
    obtain ⟨hg₁, hd₁, hch, -, -, -, hmax⟩ := updateHistory_spec hg hd hnew h₁
    refine bounded_foldlM chap hg₁ hd₁ ?_ (fun b hb' => ?_) h
    · rwa [applied_eq_hashesOf, hch, hashesOf_append, hashesOf_cons, hashesOf_nil, Set.union_insert,
        Set.union_empty, ← applied_eq_hashesOf]
    · rw [hmax]
      rcases List.mem_append.mp (hch ▸ hb') with hb' | hb'
      · exact (hb b hb').trans (le_max_left _ _)
      · rw [List.mem_singleton.mp hb']
        exact le_max_right _ _

theorem bounded_importBatch (hg : doc.changeGraph.WF) (hd : doc.deps = doc.changeGraph.heads)
    (hst : doc.Staging chap) (hb : doc.Bounded) (h : doc.importBatch chap = some doc') :
    doc'.Bounded := by
  simp only [importBatch, Option.bind_eq_bind, Option.bind_eq_some_iff, Option.some.injEq] at h
  obtain ⟨doc₁, h₁, rfl⟩ := h
  exact fun c hc => bounded_foldlM chap hg hd hst.deliverable hb h₁ c hc

theorem bounded_applyChanges (h : doc.WF) (hh : ∀ c ∈ changes, c.Honest) (hb : doc.Bounded)
    (heq : doc.applyChanges changes = .ok doc' ∨ ∃ e, doc.applyChanges changes = .error e doc') :
    doc'.Bounded := by
  obtain ⟨err, heq⟩ : ∃ err, doc.applyChanges changes = .after err doc' := by
    rcases heq with heq | ⟨e, heq⟩
    · exact ⟨none, heq⟩
    · exact ⟨some e, heq⟩
  obtain ⟨staged, chap, hcollect, himport⟩ := applyChanges_eq.mp heq
  obtain ⟨queue, rfl, hcol⟩ := collectChanges_spec h hh hcollect
  exact bounded_importBatch (show (doc.withQueue queue).changeGraph.WF from h.graph) h.deps_eq
    hcol.staging hb himport

end Automerge

open Causal

variable {H A : Type} [LinearOrder H] [LinearOrder A] [ChangeHash H A (Op A)]
  {reconstruct : List (Change H A (Op A)) → OpSet A} {n : ℕ}

/-- A document that was made without loading one. -/
inductive Replica : AutoCommit (columns (H := H) reconstruct n) → Prop
  | create (actor : A) : Replica (.ofDoc (.new _ actor))
  | edit {d d' : AutoCommit (columns reconstruct n)} (c : Tx.Call A) (hd : Replica d)
      (h : d.edit c = some d') : Replica d'
  | commit {d : AutoCommit (columns reconstruct n)} {doc : Automerge (columns reconstruct n)}
      (hd : Replica d) (hfresh : d.Fresh) (h : d.ensureTransactionClosed = some doc) :
      Replica (.ofDoc doc)
  | rollback {d : AutoCommit (columns reconstruct n)} (hd : Replica d) : Replica d.rollback
  | setActor {doc : Automerge (columns reconstruct n)} (actor : A) (hd : Replica (.ofDoc doc)) :
      Replica (.ofDoc (doc.setActor actor))
  | apply {doc doc' : Automerge (columns reconstruct n)} {changes : List (Change H A (Op A))}
      (source : Change H A (Op A) → AutoCommit (columns reconstruct n))
      (hd : Replica (.ofDoc doc)) (hsource : ∀ c ∈ changes, Replica (source c))
      (hmem : ∀ c ∈ changes, c ∈ (source c).doc.changeGraph.changes ∨ c ∈ (source c).doc.queue)
      (h : doc.applyChanges changes = .ok doc' ∨ ∃ e, doc.applyChanges changes = .error e doc') :
      Replica (.ofDoc doc')
  | relog {d : AutoCommit (columns reconstruct n)} (log : PatchLog A) (hd : Replica d) :
      Replica { d with patchLog := log }

theorem Replica.reachable {d : AutoCommit (columns (H := H) reconstruct n)} (h : Replica d) :
    Reachable d := by
  induction h with
  | create actor => exact .create actor
  | edit c _ h ih => exact .edit c ih h
  | commit _ hfresh h ih => exact .commit ih hfresh h
  | rollback _ ih => exact .rollback ih
  | setActor actor _ ih => exact .setActor actor ih
  | apply source _ _ hmem h ih ihs => exact .apply source ih ihs hmem h
  | relog log _ ih => exact .relog log ih

/-- The operations of the open transaction, with their ids. -/
def AutoCommit.opened (d : AutoCommit (columns (H := H) reconstruct n)) : List (OpId A × Op A) :=
  match d.transaction with
  | none => []
  | some tx => issued tx.startOp d.doc.actor tx.pending

/-- The operations of a document. -/
def AutoCommit.log (d : AutoCommit (columns (H := H) reconstruct n)) : Log A :=
  logAt d.doc.applied ∪ {p | p ∈ d.opened}

/-! ## What every replica keeps -/

namespace Automerge

variable {doc doc' : Automerge (columns (H := H) reconstruct n)}

/-- Every change was made on top of its dependencies. -/
def Grounded (doc : Automerge (columns (H := H) reconstruct n)) : Prop :=
  ∀ c, c ∈ doc.changeGraph.changes ∨ c ∈ doc.queue → c.Grounded

theorem WF.history (h : doc.WF) (hg : doc.Grounded) : History doc.applied A where
  closed := h.closed
  noClash := h.graph.indexed.noClash.mono fun _ hc => ChangeGraph.hash_mem_hashes.mp hc
  honest c hc := h.honest c (Or.inl (ChangeGraph.hash_mem_hashes.mp hc))
  grounded c hc := hg c (Or.inl (ChangeGraph.hash_mem_hashes.mp hc))

omit [LinearOrder H] in
theorem Bounded.log (h : doc.Bounded) : ∀ p ∈ (logAt doc.applied : Log A),
    p.1.counter < doc.maxOp + 1 := by
  rintro p ⟨c, hc, hp⟩
  exact Nat.lt_succ_of_le ((Change.le_maxOp hp).trans (h c (ChangeGraph.hash_mem_hashes.mp hc)))

/-- The heads of a document have all of it in their past. -/
theorem WF.past_heads (h : doc.WF) {deps : List H} (hsub : ∀ x ∈ deps, x ∈ doc.applied)
    (hheads : ∀ x ∈ doc.getHeads, x ∈ deps) :
    Past (Dep A (Op A)) {x | x ∈ deps} = doc.applied := by
  refine Set.Subset.antisymm (h.closed.past_subset hsub) ?_
  refine (subset_past_heads dep_wellFounded doc.applied_finite).trans (past_mono ?_)
  rw [← getHeads_eq_heads h]
  exact hheads

end Automerge

namespace AutoCommit

structure Kept (d : AutoCommit (columns (H := H) reconstruct n)) : Prop where
  grounded : d.doc.Grounded
  bounded : d.doc.Bounded
  wf : d.log.WF
  below : ∀ tx, d.transaction = some tx →
    ∀ p ∈ d.log, p.1.counter < tx.startOp + tx.pending.length
  recorded : Recorded d.doc.ops d.log
  checkpoint : ∀ tx, d.transaction = some tx → Recorded tx.checkpoint (logAt d.doc.applied)

variable {d d' : AutoCommit (columns (H := H) reconstruct n)}
  {doc : Automerge (columns (H := H) reconstruct n)}

omit [LinearOrder H] in
@[simp] theorem log_ofDoc : (ofDoc doc).log = logAt doc.applied := by
  unfold log opened ofDoc closed
  simp

/-- With the transaction closed the log is that of the changes. -/
theorem kept_ofDoc (hwf : doc.WF) (hg : doc.Grounded) (hb : doc.Bounded)
    (hrec : Recorded doc.ops (logAt doc.applied : Log A)) : (ofDoc doc).Kept where
  grounded := hg
  bounded := hb
  wf := by
    rw [log_ofDoc]
    exact (hwf.history hg).wf
  below tx h := by cases h
  recorded := by
    rw [log_ofDoc]
    exact hrec
  checkpoint tx h := by cases h

omit [LinearOrder H] in
/-- The patch log has no part in it. -/
theorem Kept.relog (h : d.Kept) (log : PatchLog A) : Kept { d with patchLog := log } :=
  ⟨h.grounded, h.bounded, h.wf, h.below, h.recorded, h.checkpoint⟩

omit [LinearOrder H] in
theorem Kept.recorded_ofDoc (h : (ofDoc doc).Kept) :
    Recorded doc.ops (logAt doc.applied : Log A) := by
  rw [← log_ofDoc]
  exact h.recorded

/-- The transaction that is open, or is opened. -/
theorem Kept.ensureTransactionOpen (h : d.Kept) (hwf : d.doc.WF)
    {tx : Transaction (columns reconstruct n)} {patchLog : PatchLog A}
    (htx : d.ensureTransactionOpen = some (tx, patchLog)) :
    d.log = logAt d.doc.applied ∪ {p | p ∈ issued tx.startOp d.doc.actor tx.pending} ∧
      (∀ p ∈ d.log, p.1.counter < tx.startOp + tx.pending.length) ∧
        Recorded tx.checkpoint (logAt d.doc.applied) := by
  rcases ensureTransactionOpen_cases htx with ⟨hopen, -⟩ | ⟨hnone, hargs, -⟩
  · refine ⟨?_, h.below tx hopen, h.checkpoint tx hopen⟩
    unfold log opened
    rw [hopen]
  · have hlog : d.log = logAt d.doc.applied := by
      unfold log opened
      rw [hnone]
      simp
    obtain ⟨tx', hargs', -, hstart, -⟩ := Automerge.transactionArgs_spec hwf
    obtain rfl : tx' = tx := Option.some.inj (hargs'.symm.trans hargs)
    obtain ⟨hpending, hcheck⟩ := Automerge.pending_transactionArgs hargs
    rw [hpending, hcheck, hlog, hstart]
    exact ⟨by simp [issued], h.bounded.log, hlog ▸ h.recorded⟩

/-- An edit adds the operations of a call. -/
theorem Kept.edit (h : d.Kept) (hwf : d.doc.WF) {c : Tx.Call A} (heq : d.edit c = some d') :
    d'.Kept := by
  unfold AutoCommit.edit at heq
  simp only [Option.bind_eq_bind, Option.bind_eq_some_iff] at heq
  obtain ⟨⟨tx, patchLog⟩, htx, heq⟩ := heq
  obtain ⟨hlog, hbelow, hcheck⟩ := h.ensureTransactionOpen hwf htx
  have hnext := h.recorded.call h.wf d.doc.actor hbelow c
  generalize hcall : Tx.call ⟨d.doc.ops, d.doc.actor, tx.startOp + tx.pending.length, []⟩ c = tx'
    at hnext
  obtain ⟨hwf', hrec, hlt⟩ := hnext
  have heq : d' = ⟨{ d.doc with ops := tx'.ops },
      some { tx with pending := tx.pending ++ tx'.pending }, patchLog⟩ := by
    rw [← hcall]
    exact (Option.some.inj heq).symm
  have hlog' : d'.log = d.log ∪
      {p | p ∈ issued (tx.startOp + tx.pending.length) d.doc.actor tx'.pending} := by
    rw [hlog, Set.union_assoc, heq]
    unfold log opened
    dsimp only
    rw [issued_append]
    congr 1
    exact Set.ext fun p => List.mem_append
  rw [← hlog'] at hwf' hrec hlt
  have hdoc : d'.doc = { d.doc with ops := tx'.ops } := by rw [heq]
  refine ⟨hdoc ▸ h.grounded, hdoc ▸ h.bounded, hwf', fun t ht p hp => ?_, ?_, fun t ht => ?_⟩
  · rw [heq] at ht
    cases ht
    show p.1.counter < tx.startOp + (tx.pending ++ tx'.pending).length
    rw [List.length_append, ← Nat.add_assoc]
    exact hlt p hp
  · rw [hdoc]
    exact hrec
  · rw [heq] at ht
    cases ht
    rw [hdoc]
    exact hcheck

/-- A commit makes a change of the operations of the transaction. -/
theorem Kept.commit (h : d.Kept) (hr : Reachable d) (hfresh : d.Fresh)
    (heq : d.ensureTransactionClosed = some doc) : (ofDoc doc).Kept := by
  obtain ⟨hwf, htx⟩ := hr.wf
  obtain ⟨doc', hdoc', hwf', hch, hq, -, hops⟩ := ensureTransactionClosed_spec hwf htx hfresh
  obtain rfl : doc = doc' := Option.some.inj (heq.symm.trans hdoc')
  unfold ensureTransactionClosed at heq
  cases hp : d.pendingChange with
  | none =>
    rw [hp] at heq
    cases heq
    refine kept_ofDoc hwf h.grounded h.bounded ?_
    have hlog : d.log = logAt d.doc.applied := by
      unfold log opened
      unfold pendingChange at hp
      split at hp
      · rename_i hnone
        rw [hnone]
        simp
      · rename_i tx hsome
        have hempty : tx.pending = [] := by
          split at hp
          · rwa [List.isEmpty_iff] at *
          · cases hp
        rw [hsome]
        simp [hempty, issued]
    exact hlog ▸ h.recorded
  | some c =>
    rw [hp] at heq hch
    have hc := committable_of_pendingChange hwf htx hp
    have hnew := hc.not_applied hwf
    obtain ⟨tx, hopen, hne, hpending⟩ : ∃ tx, d.transaction = some tx ∧ tx.pending ≠ [] ∧
        tx.export d.doc.actor = c := by
      unfold pendingChange at hp
      split at hp
      · cases hp
      · split at hp
        · cases hp
        · rename_i hne
          exact ⟨_, ‹_›, fun hnil => hne (by rw [hnil]; rfl), Option.some.inj hp⟩
    have hid : c.identified = d.opened := by
      unfold opened
      rw [hopen, ← hpending]
      rfl
    have happ : doc.applied = insert c.hash d.doc.applied := by
      rw [Automerge.applied_eq_hashesOf, Automerge.applied_eq_hashesOf, hch]
      simp [hashesOf_append, hashesOf_cons, hashesOf_nil]
    have hlog : logAt doc.applied = d.log := by
      unfold log
      rw [happ, Set.insert_eq, Set.union_comm, logAt_union, ← hid]
      congr 1
      ext p
      constructor
      · rintro ⟨b, hb, hp⟩
        exact Change.hash_inj hb ▸ hp
      · exact fun hp => ⟨c, rfl, hp⟩
    have hpast := hwf.past_heads hc.deps hc.heads
    have hop : c.startOp = d.doc.maxOp + 1 := by
      obtain ⟨args, hargs, -, hstart, -⟩ := htx tx hopen
      obtain ⟨args', hargs', -, hstart', -⟩ := Automerge.transactionArgs_spec hwf
      obtain rfl := Option.some.inj (hargs.symm.trans hargs')
      rw [← hpending]
      exact hstart.trans hstart'
    have hcg : c.Grounded := by
      refine ⟨hop ▸ Nat.succ_pos _, ?_, fun b hb => ?_, fun p hp => ?_⟩
      · rw [← hpending]
        exact hne
      · rw [hpast] at hb
        rw [hop]
        exact Nat.lt_succ_of_le (h.bounded b (ChangeGraph.hash_mem_hashes.mp hb))
      · rw [past_change, hpast, ← happ, hlog]
        exact h.wf.rooted p (Or.inr (hid ▸ hp))
    obtain ⟨-, -, -, -, -, -, hmax⟩ := Automerge.updateHistory_spec hwf.graph hwf.deps_eq hnew heq
    have hmem : ∀ b ∈ doc.changeGraph.changes, b ∈ d.doc.changeGraph.changes ∨ b = c := by
      intro b hb
      rw [hch] at hb
      exact (List.mem_append.mp hb).imp_right List.mem_singleton.mp
    refine kept_ofDoc hwf' ?_ ?_ ?_
    · rintro b (hb | hb)
      · rcases hmem b hb with hb | rfl
        · exact h.grounded b (Or.inl hb)
        · exact hcg
      · exact h.grounded b (Or.inr (hq ▸ hb))
    · intro b hb
      rw [hmax]
      rcases hmem b hb with hb | rfl
      · exact (h.bounded b hb).trans (le_max_left _ _)
      · exact le_max_right _ _
    · rw [hops, hlog]
      exact h.recorded

theorem Kept.rollback (h : d.Kept) (hwf : d.doc.WF) : d.rollback.Kept := by
  unfold AutoCommit.rollback
  split
  · exact h
  · rename_i tx hopen
    have hwf' : ({ d.doc with ops := tx.checkpoint } : Automerge (columns reconstruct n)).WF :=
      ⟨hwf.graph, hwf.deps_eq, hwf.queue_nodup, hwf.queue_new, hwf.honest⟩
    exact (kept_ofDoc hwf' h.grounded h.bounded (h.checkpoint tx hopen)).relog d.patchLog

/-- Changes of other replicas are applied, each at once or when its dependencies are there. -/
theorem Kept.apply {doc' : Automerge (columns (H := H) reconstruct n)}
    {changes : List (Change H A (Op A))} (h : (ofDoc doc).Kept) (hwf : doc.WF)
    (hg : ∀ c ∈ changes, c.Grounded) (hh : ∀ c ∈ changes, c.Honest)
    (heq : doc.applyChanges changes = .ok doc' ∨ ∃ e, doc.applyChanges changes = .error e doc') :
    (ofDoc doc').Kept ∧ ∃ chap, doc.Extends doc' changes chap ∧
      OpSet.applyBatch doc.ops (chap.flatMap Change.identified) = some doc'.ops := by
  have hbounded := Automerge.bounded_applyChanges hwf hh h.bounded heq
  obtain ⟨chap, hext⟩ : ∃ chap, doc.Extends doc' changes chap := by
    rcases heq with heq | ⟨e, heq⟩
    · obtain ⟨chap, hext, -⟩ := Automerge.applyChanges_ok hwf hh heq
      exact ⟨chap, hext⟩
    · exact Automerge.applyChanges_error hwf hh heq
  have hgrounded : doc'.Grounded := by
    have hfrom : ∀ c, c ∈ doc.queue ∨ c ∈ changes → c.Grounded := fun c hc =>
      hc.elim (fun hc => h.grounded c (Or.inr hc)) (hg c)
    rintro c (hc | hc)
    · rw [hext.changes_eq] at hc
      exact (List.mem_append.mp hc).elim (fun hc => h.grounded c (Or.inl hc)) fun hc =>
        hfrom c (hext.batch_from c hc)
    · exact hfrom c (hext.queue_from c hc)
  obtain ⟨hsome, hrec'⟩ := h.recorded_ofDoc.applyChanges hext.deliverable
    (hext.applied_eq ▸ hext.wf.history hgrounded) (hwf.history h.grounded).wf doc.actor
    h.bounded.log reconstruct n
  refine ⟨kept_ofDoc hext.wf hgrounded hbounded ?_, chap, hext, ?_⟩
  · rw [hext.ops, hext.applied_eq]
    exact hrec'
  · obtain ⟨s', hs'⟩ := Option.isSome_iff_exists.mp hsome
    rw [hs', hext.ops]
    show some s' = some ((OpSet.applyBatch doc.ops (chap.flatMap Change.identified)).getD doc.ops)
    rw [hs']
    rfl

end AutoCommit

/-- **What is kept** over every run. -/
theorem Replica.kept {d : AutoCommit (columns (H := H) reconstruct n)} (h : Replica d) : d.Kept := by
  induction h with
  | create actor =>
    refine AutoCommit.kept_ofDoc (Automerge.wf_new actor) ?_ ?_ ?_
    · rintro c (hc | hc) <;> cases hc
    · intro c hc
      cases hc
    · have hnil : (logAt (Automerge.new (columns (H := H) reconstruct n) actor).applied : Log A) = ∅ := by
        refine Set.eq_empty_of_forall_notMem ?_
        rintro p ⟨c, hc, -⟩
        cases hc
      rw [hnil]
      exact recorded_new
  | edit c hd h ih => exact ih.edit hd.reachable.wf.1 h
  | commit hd hfresh h ih => exact ih.commit hd.reachable hfresh h
  | rollback hd ih => exact ih.rollback hd.reachable.wf.1
  | @setActor doc actor hd ih =>
    have hwf : (doc.setActor actor).WF :=
      (Reachable.setActor actor hd.reachable).wf.1
    exact AutoCommit.kept_ofDoc hwf ih.grounded ih.bounded ih.recorded_ofDoc
  | apply source hd hsource hmem h ih ihs =>
    exact (ih.apply hd.reachable.wf.1 (fun c hc => (ihs c hc).grounded c (hmem c hc))
      (fun c hc => (hsource c hc).reachable.wf.1.honest c (hmem c hc)) h).1
  | relog log _ ih => exact ih.relog log

end AutomergeR
