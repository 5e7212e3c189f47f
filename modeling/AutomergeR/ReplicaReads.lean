import AutomergeR.ApplyOrder
import AutomergeR.OpCode
import AutomergeR.Replicas

/-! # What replicas read

The columns of a replica record its log, whatever was done to it and received
(`rows_of_replica`). Changes of other replicas never break the batch off, and add exactly
their operations (`applyBatch_of_replica`). So replicas with the same heads read the same
(`reads_of_replica`), as the two sides of a merge do (`amMerge_reads`).
-/

namespace AutomergeR

open Automerge

variable {H A : Type} [LinearOrder H] [LinearOrder A] [ChangeHash H A (Op A)]
  {reconstruct : List (Change H A (Op A)) → OpSet A} {n : ℕ}

/-! ## The rows of a replica -/

/-- **Every operation has its row**: the ids of the log are unique, and the columns hold a row
for each operation but the deletions, in the object it is for, and no other rows. -/
theorem rows_of_replica {d : AutoCommit (columns (H := H) reconstruct n)} (h : Replica d) :
    d.log.WF ∧ Represents d.doc.ops d.log :=
  ⟨h.kept.wf, h.kept.recorded.represents⟩

theorem Replica.wf {doc : Automerge (columns (H := H) reconstruct n)} (h : Replica (.ofDoc doc)) :
    doc.WF := h.reachable.wf.1

theorem Replica.sameReads {doc doc' : Automerge (columns (H := H) reconstruct n)}
    (h : Replica (.ofDoc doc)) (h' : Replica (.ofDoc doc')) (hheads : doc.getHeads = doc'.getHeads)
    (hplain : (AutoCommit.ofDoc doc).log.Plain) : SameReads (A := A) doc.ops doc'.ops := by
  have happ : doc'.applied = doc.applied := ((getHeads_eq_iff h.wf h'.wf).mp hheads).symm
  have hrec : Recorded (A := A) doc'.ops (logAt doc.applied) := happ ▸ h'.kept.recorded_ofDoc
  rw [AutoCommit.log_ofDoc] at hplain
  exact h.kept.recorded_ofDoc.sameReads hrec (h.wf.history h.kept.grounded).wf hplain

/-- **Replicas with the same heads read the same**, whatever made them, where increments are
made to counters of maps only. -/
theorem reads_of_replica {doc doc' : Automerge (columns (H := H) reconstruct n)}
    (h : Replica (.ofDoc doc)) (h' : Replica (.ofDoc doc')) (hheads : doc.getHeads = doc'.getHeads)
    (hplain : (AutoCommit.ofDoc doc).log.Plain) :
    SameReads doc.ops doc'.ops ∧
      ∀ depth, OpSet.fromAutomerge doc.ops depth = OpSet.fromAutomerge doc'.ops depth :=
  have hsame := h.sameReads h' hheads hplain
  ⟨hsame, hsame.fromAutomerge⟩

/-! ## Merges -/

/-- Merged, the one replica has the changes of both, if its patch log fits. -/
theorem Replica.exists_merged {d other : AutoCommit (columns (H := H) reconstruct n)}
    (hd : Replica d) (ho : Replica other) (hq : d.doc.queue = []) (hqo : other.doc.queue = [])
    (hlog : d.LogFits) (hclash : NoClash {c | c ∈ d.changes ∨ c ∈ other.changes}) :
    ∃ merged log odoc,
      d.amMerge other = .ok (.closed merged log, .closed odoc other.patchLog) ∧
      Replica (.ofDoc merged) ∧
      merged.applied = hashesOf d.changes ∪ hashesOf other.changes := by
  have hf := AutoCommit.fresh_of_queue_nil hq
  have hfo := AutoCommit.fresh_of_queue_nil hqo
  obtain ⟨doc, hclosed, hwf, hch, hqueue, happ⟩ := exists_closed hd.reachable hf
  obtain ⟨odoc, hoclosed, howf, hoch, -, hoapp⟩ := exists_closed ho.reachable hfo
  rw [hq] at hqueue
  obtain ⟨cs, hadded, -, hcs⟩ := getChangesAdded_spec hwf howf
  have hhonest : ∀ c ∈ cs, c.Honest := fun c hc => howf.honest c (Or.inl ((hcs c).mp hc).1)
  obtain ⟨merged, hmerged⟩ := applyChanges_total hwf hhonest (hclash.mono fun c hc => by
    rcases hc with hc | hc | hc
    · exact Or.inl (hch ▸ hc)
    · rw [hqueue] at hc
      cases hc
    · exact Or.inr (hoch ▸ ((hcs c).mp hc).1))
  have hunion : doc.known ∪ hashesOf cs = hashesOf d.changes ∪ hashesOf other.changes := by
    rw [getChangesAdded_hashes hcs, known, held, hqueue, hashesOf_nil, Set.union_empty, happ, hoapp,
      Set.union_sdiff_self]
  have hunionClosed : Causal.Closed (Dep A (Op A)) (hashesOf d.changes ∪ hashesOf other.changes) := by
    rw [← happ, ← hoapp]
    exact hwf.closed.union howf.closed
  obtain ⟨log, hlogged, -⟩ := applyChangesLogPatches_of_subset hwf.graph (hlog.subset hwf hch)
    (show doc.applyChanges cs = .after none merged from hmerged)
  have hmerge : doc.mergeAndLogPatches odoc d.patchLog = .ok (merged, log) := by
    unfold Automerge.mergeAndLogPatches
    rw [hadded]
    exact hlogged
  have hcall : d.amMerge other = .ok (.closed merged log, .closed odoc other.patchLog) := by
    simp only [AutoCommit.amMerge, hclosed, hoclosed, hmerge]
    rfl
  refine ⟨merged, log, odoc, hcall, ?_, ((takes_of_applyChanges hwf hhonest hmerged).settles hunion hunionClosed).1⟩
  exact .apply (fun _ => .ofDoc odoc) (hd.commit hf hclosed) (fun _ _ => ho.commit hfo hoclosed)
    (fun c hc => Or.inl ((hcs c).mp hc).1) (Or.inl hmerged)

/-- **A merge, one way or the other**, makes documents that read the same, where the patch
logs fit. -/
theorem amMerge_reads {d other : AutoCommit (columns (H := H) reconstruct n)}
    (hd : Replica d) (ho : Replica other) (hq : d.doc.queue = []) (hqo : other.doc.queue = [])
    (hlog : d.LogFits) (hlogo : other.LogFits)
    (hclash : NoClash {c | c ∈ d.changes ∨ c ∈ other.changes})
    (hplain : (logAt (hashesOf d.changes ∪ hashesOf other.changes) : Log A).Plain) :
    ∃ merged log odoc merged' log' ddoc,
      d.amMerge other = .ok (.closed merged log, .closed odoc other.patchLog) ∧
      other.amMerge d = .ok (.closed merged' log', .closed ddoc d.patchLog) ∧
      merged.getHeads = merged'.getHeads ∧
        SameReads merged.ops merged'.ops ∧
          ∀ depth, OpSet.fromAutomerge merged.ops depth = OpSet.fromAutomerge merged'.ops depth := by
  obtain ⟨merged, log, odoc, hmerge, hm, happ⟩ := hd.exists_merged ho hq hqo hlog hclash
  obtain ⟨merged', log', ddoc, hmerge', hm', happ'⟩ :=
    ho.exists_merged hd hqo hq hlogo (hclash.mono fun c hc => hc.symm)
  have hheads : merged.getHeads = merged'.getHeads :=
    (getHeads_eq_iff hm.wf hm'.wf).mpr (by rw [happ, happ', Set.union_comm])
  have hsame := hm.sameReads hm' hheads (by
    rw [AutoCommit.log_ofDoc, happ]
    exact hplain)
  exact ⟨merged, log, odoc, merged', log', ddoc, hmerge, hmerge', hheads, hsame,
    hsame.fromAutomerge⟩

/-! ## Calls in one transaction -/

/-- What calls, one after the other, make of the columns and of the operations of a
transaction. -/
def Tx.runCalls (actor : A) (startOp : ℕ) (calls : List (Tx.Call A)) (ops : OpSet A)
    (pending : List (Op A)) : OpSet A × List (Op A) :=
  calls.foldl (fun r c =>
    let tx := Tx.call ⟨r.1, actor, startOp + r.2.length, []⟩ c
    (tx.ops, r.2 ++ tx.pending)) (ops, pending)

theorem Replica.calls (calls : List (Tx.Call A)) :
    ∀ {d : AutoCommit (columns (H := H) reconstruct n)} {tx : Transaction (columns reconstruct n)}
      {log : PatchLog A} (c : Tx.Call A), Replica d → d.ensureTransactionOpen = some (tx, log) →
        let r := Tx.runCalls d.doc.actor tx.startOp (c :: calls) d.doc.ops tx.pending
        Replica ⟨{ d.doc with ops := r.1 }, some { tx with pending := r.2 }, log⟩ := by
  induction calls with
  | nil =>
    intro d tx log c h hopen
    refine h.edit c ?_
    simp only [AutoCommit.edit, hopen, Option.bind_eq_bind, Option.bind_some]
    rfl
  | cons c' calls ih =>
    intro d tx log c h hopen
    have hedit : d.edit c = some ⟨{ d.doc with
        ops := (Tx.runCalls d.doc.actor tx.startOp [c] d.doc.ops tx.pending).1 },
        some { tx with
          pending := (Tx.runCalls d.doc.actor tx.startOp [c] d.doc.ops tx.pending).2 }, log⟩ := by
      simp only [AutoCommit.edit, hopen, Option.bind_eq_bind, Option.bind_some]
      rfl
    exact ih c' (h.edit c hedit) rfl

/-- Calls and a commit make one change on top of the document. -/
theorem Replica.exists_committed {doc : Automerge (columns (H := H) reconstruct n)}
    (h : Replica (.ofDoc doc)) (hq : doc.queue = []) (c : Tx.Call A) (calls : List (Tx.Call A))
    {r : OpSet A × List (Op A)}
    (hr : Tx.runCalls doc.actor (doc.maxOp + 1) (c :: calls) doc.ops [] = r) (hne : r.2 ≠ []) :
    ∃ (doc' : Automerge (columns reconstruct n)) (ch : Change H A (Op A)), Replica (.ofDoc doc') ∧
      doc'.queue = [] ∧ doc'.changeGraph.changes = doc.changeGraph.changes ++ [ch] ∧
      ch.actor = doc.actor ∧ ch.startOp = doc.maxOp + 1 ∧ ch.ops = r.2 ∧ doc'.ops = r.1 ∧
      doc'.maxOp = max doc.maxOp ch.maxOp ∧ doc'.actor = doc.actor ∧
        ∀ x ∈ doc.getHeads, x ∈ ch.deps := by
  have hwf := h.wf
  obtain ⟨tx, htx, -, hstart, -⟩ := transactionArgs_spec hwf
  obtain ⟨hpending, -⟩ := pending_transactionArgs htx
  have hopen : (AutoCommit.ofDoc doc).ensureTransactionOpen =
      some (tx, ⟨insert doc.actor doc.actors⟩) := by
    simp only [AutoCommit.ensureTransactionOpen, AutoCommit.ofDoc, AutoCommit.closed, htx,
      PatchLog.migrateActors_inactive, Option.bind_eq_bind, Option.bind_some]
  have hr' : Tx.runCalls doc.actor tx.startOp (c :: calls) doc.ops tx.pending = r := by
    rw [hpending, hstart]
    exact hr
  have hd : Replica ⟨{ doc with ops := r.1 }, some { tx with pending := r.2 },
      ⟨insert doc.actor doc.actors⟩⟩ := hr' ▸ h.calls calls c hopen
  -- then they are committed
  have hchange : (⟨{ doc with ops := r.1 }, some { tx with pending := r.2 },
      ⟨insert doc.actor doc.actors⟩⟩ : AutoCommit (columns reconstruct n)).pendingChange =
        some (Transaction.export { tx with pending := r.2 } doc.actor) :=
    if_neg (by simpa using hne)
  have hfresh := AutoCommit.fresh_of_queue_nil (d := ⟨{ doc with ops := r.1 },
    some { tx with pending := r.2 }, ⟨insert doc.actor doc.actors⟩⟩) hq
  obtain ⟨doc', hclosed, hwf', hch, hq', -, hops⟩ :=
    AutoCommit.ensureTransactionClosed_spec hd.reachable.wf.1 hd.reachable.wf.2 hfresh
  have hcommit := AutoCommit.committable_of_pendingChange hd.reachable.wf.1 hd.reachable.wf.2 hchange
  rw [hchange] at hch
  have hupdate := hclosed
  unfold AutoCommit.ensureTransactionClosed at hupdate
  rw [hchange] at hupdate
  dsimp only at hupdate
  obtain ⟨-, -, -, -, hactor, -, hmax⟩ := updateHistory_spec hd.reachable.wf.1.graph
    hd.reachable.wf.1.deps_eq (hcommit.not_applied hd.reachable.wf.1) hupdate
  exact ⟨doc', _, hd.commit hfresh hclosed, hq'.trans hq, hch, rfl, hstart, rfl, hops, hmax, hactor,
    hcommit.heads⟩

/-! ## Two replicas that put a value under the same key -/

/-- What `am_put(doc, AM_ROOT, "x", 1L)` issues. -/
def putOp : Op ℕ := ⟨none, .map "x", false, .put (.int 1), []⟩

/-- The columns, with changes hashed by their encodings. -/
abbrev byteColumns : OpSetModel ByteHash ℕ (Op ℕ) := columns (fun _ => OpSet.new) 4

/-- A replica of `actor` after its first call. -/
def callReplica (actor : ℕ) (c : Tx.Call ℕ) : AutoCommit byteColumns :=
  let tx : Tx ℕ := Tx.call ⟨OpSet.new, actor, 1, []⟩ c
  ⟨{ Automerge.new byteColumns actor with ops := tx.ops }, some ⟨1, 1, [], tx.pending, OpSet.new⟩,
    ⟨{actor}⟩⟩

theorem callReplica_replica (actor : ℕ) (c : Tx.Call ℕ) : Replica (callReplica actor c) := by
  have hargs : (Automerge.new byteColumns actor).transactionArgs =
      some ⟨1, 1, [], [], OpSet.new⟩ := by
    have hheads : (Automerge.new byteColumns actor).getHeads = [] :=
      Finset.sort_empty _
    unfold Automerge.transactionArgs
    rw [hheads]
    rfl
  have hopen : (AutoCommit.ofDoc (Automerge.new byteColumns actor)).ensureTransactionOpen =
      some (⟨1, 1, [], [], OpSet.new⟩, ⟨{actor}⟩) := by
    simp only [AutoCommit.ensureTransactionOpen, AutoCommit.ofDoc, AutoCommit.closed, hargs,
      PatchLog.migrateActors_inactive, Option.bind_eq_bind, Option.bind_some]
    rfl
  exact (Replica.create actor).calls [] c hopen

/-- It has put a value. -/
def putReplica (actor : ℕ) : AutoCommit byteColumns :=
  callReplica actor (.put none (.character [] [.lit "x"]) (.integer [] [1]))

theorem putReplica_replica (actor : ℕ) : Replica (putReplica actor) := callReplica_replica actor _

theorem putReplica_changes (actor : ℕ) :
    (putReplica actor).changes = [⟨actor, 1, 1, [], [putOp]⟩] := by
  have hdeps : ([] : List ByteHash).mergeSort (· ≤ ·) = [] := List.mergeSort_nil
  have hpending : (Tx.call (⟨OpSet.new, actor, 1, []⟩ : Tx ℕ)
      (.put none (.character [] [.lit "x"]) (.integer [] [1]))).pending = [putOp] := rfl
  show [] ++ (AutoCommit.pendingChange _).toList = _
  unfold AutoCommit.pendingChange putReplica callReplica
  simp only [hpending, Transaction.export, hdeps]
  rfl

theorem logFits_put (actor : ℕ) : (putReplica actor).LogFits := by
  intro a ha
  refine ⟨⟨actor, 1, 1, [], [putOp]⟩, ?_, (Finset.mem_singleton.mp ha).symm⟩
  rw [putReplica_changes]
  exact List.mem_singleton_self _

theorem noClash_put : NoClash {c | c ∈ (putReplica 1).changes ∨ c ∈ (putReplica 2).changes} := by
  intro c hc d hd hactor _
  simp only [putReplica_changes, List.mem_singleton, Set.mem_ofPred_eq] at hc hd
  rcases hc with rfl | rfl <;> rcases hd with rfl | rfl
  · rfl
  · cases hactor
  · cases hactor
  · rfl

theorem plain_put : (logAt (hashesOf (putReplica 1).changes ∪ hashesOf (putReplica 2).changes) :
    Log ℕ).Plain := by
  rintro p ⟨c, hc, hp⟩ hinc
  have hops : c.ops = [putOp] := by
    simp only [putReplica_changes] at hc
    rcases hc with hc | hc <;> rw [List.mem_singleton.mp (mem_hashesOf.mp hc)]
  obtain ⟨i, hi, -⟩ := mem_issued.mp hp
  have hmem : p.2 ∈ c.ops := List.mem_of_getElem? hi
  rw [hops, List.mem_singleton] at hmem
  rw [hmem] at hinc
  cases hinc

theorem reads_of_replica_put : ∃ doc doc' : Automerge byteColumns,
    doc.applied = hashesOf (putReplica 1).changes ∪ hashesOf (putReplica 2).changes ∧
      doc.getHeads = doc'.getHeads ∧ SameReads (A := ℕ) doc.ops doc'.ops := by
  obtain ⟨doc, -, -, -, hd, happ⟩ := (putReplica_replica 1).exists_merged (putReplica_replica 2) rfl
    rfl (logFits_put 1) noClash_put
  obtain ⟨doc', -, -, -, hd', happ'⟩ := (putReplica_replica 2).exists_merged (putReplica_replica 1)
    rfl rfl (logFits_put 2) (noClash_put.mono fun c hc => hc.symm)
  have hheads : doc.getHeads = doc'.getHeads :=
    (getHeads_eq_iff hd.wf hd'.wf).mpr (by rw [happ, happ', Set.union_comm])
  refine ⟨doc, doc', happ, hheads, (reads_of_replica hd hd' hheads ?_).1⟩
  rw [AutoCommit.log_ofDoc, happ]
  exact plain_put

theorem amMerge_reads_put : ∃ merged log odoc merged' log' ddoc,
    (putReplica 1).amMerge (putReplica 2) = .ok (.closed merged log, .closed odoc ⟨{2}⟩) ∧
      (putReplica 2).amMerge (putReplica 1) = .ok (.closed merged' log', .closed ddoc ⟨{1}⟩) ∧
        SameReads (A := ℕ) merged.ops merged'.ops := by
  obtain ⟨merged, log, odoc, merged', log', ddoc, hmerge, hmerge', -, hsame, -⟩ :=
    amMerge_reads (putReplica_replica 1) (putReplica_replica 2) rfl rfl (logFits_put 1)
      (logFits_put 2) noClash_put plain_put
  exact ⟨merged, log, odoc, merged', log', ddoc, hmerge, hmerge', hsame⟩

/-! ## A replica that receives edits and edits of them -/

/-- A value and a counter are put, -/
def firstCalls : List (Tx.Call ℕ) :=
  [.put none (.character [] [.lit "x"]) (.integer [] [1]),
    .put none (.character [] [.lit "n"]) (.integer ["am_counter"] [5])]

/-- and then the one is deleted and the other incremented. -/
def laterCalls : List (Tx.Call ℕ) :=
  [.delete none (.character [] [.lit "x"]),
    .counterIncrement none (.character [] [.lit "n"]) (.integer [] [2])]

/-- The operations of the first calls, -/
def firstOps : List (Op ℕ) :=
  [⟨none, .map "x", false, .put (.int 1), []⟩, ⟨none, .map "n", false, .put (.counter 5), []⟩]

/-- and of the later ones. -/
def laterOps : List (Op ℕ) :=
  [⟨none, .map "x", false, .delete, [.new 1 1]⟩, ⟨none, .map "n", false, .increment 2, [.new 2 1]⟩]

/-- Actor 2 edits what actor 1 has made, and actor 3 receives both changes, the later first. -/
theorem exists_received : ∃ (maker doc : Automerge byteColumns) (c₁ c₂ : Change ByteHash ℕ (Op ℕ)),
    Replica (.ofDoc maker) ∧ maker.changeGraph.changes = [c₁, c₂] ∧
      (Automerge.new byteColumns 3).applyChanges [c₂, c₁] = .ok doc ∧ Replica (.ofDoc doc) ∧
      doc.applied = maker.applied ∧ doc.actor = 3 ∧
      c₁.actor = 1 ∧ c₁.startOp = 1 ∧ c₁.ops = firstOps ∧
      c₂.actor = 2 ∧ c₂.startOp = 3 ∧ c₂.ops = laterOps := by
  obtain ⟨doc₁, c₁, h₁, hq₁, hch₁, ha₁, hs₁, hops₁, hcols₁, hmax₁, -⟩ :=
    (Replica.create 1 : Replica (.ofDoc (Automerge.new byteColumns 1))).exists_committed rfl _ _
      (show Tx.runCalls 1 1 firstCalls OpSet.new [] = _ from rfl) (by decide +kernel)
  have hfirst : (Tx.runCalls 1 1 firstCalls OpSet.new []).2 = firstOps := by decide +kernel
  rw [hfirst] at hops₁
  replace hs₁ : c₁.startOp = 1 := hs₁
  replace hmax₁ : doc₁.maxOp = 2 := by
    rw [hmax₁, Change.maxOp, hs₁, hops₁]
    rfl
  replace hch₁ : doc₁.changeGraph.changes = [c₁] := hch₁
  -- actor 2 goes on from there
  have hrun : Tx.runCalls (doc₁.setActor 2).actor ((doc₁.setActor 2).maxOp + 1) laterCalls
      (doc₁.setActor 2).ops [] = Tx.runCalls 2 3 laterCalls
        (Tx.runCalls 1 1 firstCalls OpSet.new []).1 [] := by
    show Tx.runCalls 2 (doc₁.maxOp + 1) laterCalls doc₁.ops [] = _
    rw [hmax₁, hcols₁]
  have hlater : (Tx.runCalls 2 3 laterCalls
      (Tx.runCalls 1 1 firstCalls OpSet.new []).1 []).2 = laterOps := by decide +kernel
  obtain ⟨maker, c₂, h₂, hq₂, hch₂, ha₂, hs₂, hops₂, -⟩ :=
    (h₁.setActor 2).exists_committed hq₁ _ _ hrun (by rw [hlater]; exact List.cons_ne_nil _ _)
  rw [hlater] at hops₂
  replace hs₂ : c₂.startOp = 3 := hs₂.trans (congrArg (· + 1) hmax₁)
  replace hch₂ : maker.changeGraph.changes = [c₁, c₂] := hch₂.trans (congrArg (· ++ [c₂]) hch₁)
  -- actor 3 receives the two changes
  have hmem : ∀ c ∈ [c₂, c₁], c ∈ maker.changeGraph.changes := fun c hc => by
    rw [hch₂]
    exact List.mem_reverse.mp hc
  have hhonest : ∀ c ∈ [c₂, c₁], c.Honest := fun c hc => h₂.wf.honest c (Or.inl (hmem c hc))
  have hnew : (Automerge.new byteColumns 3).WF := wf_new 3
  obtain ⟨doc, hdoc⟩ := applyChanges_total hnew hhonest
    (h₂.wf.graph.indexed.noClash.mono fun c hc => by
      rcases hc with hc | hc | hc
      · cases hc
      · cases hc
      · exact hmem c hc)
  have htakes := takes_of_applyChanges hnew hhonest hdoc
  have hall : (Automerge.new byteColumns 3).known ∪ hashesOf [c₂, c₁] = maker.applied := by
    rw [show (Automerge.new byteColumns 3).known = ∅ from (known_of_isEmpty rfl).2, Set.empty_union,
      applied_eq_hashesOf, hch₂]
    exact hashesOf_perm (List.Perm.swap c₁ c₂ [])
  exact ⟨maker, doc, c₁, c₂, h₂, hch₂, hdoc, .apply (fun _ => .ofDoc maker) (.create 3)
    (fun _ _ => h₂) (fun c hc => Or.inl (hmem c hc)) (Or.inl hdoc),
    (htakes.settles hall h₂.wf.closed).1, htakes.actor, ha₁, hs₁, hops₁, ha₂, hs₂, hops₂⟩

/-- All changes of the document were received; among their operations are a deletion and an
increment, each of an earlier one. -/
structure Received (doc : Automerge byteColumns) : Prop where
  replica : Replica (.ofDoc doc)
  received : doc.changeGraph.changes ≠ [] ∧ ∀ c ∈ doc.changeGraph.changes, c.actor ≠ doc.actor
  deletion : ∃ p ∈ (AutoCommit.ofDoc doc).log, p.2.action = .delete ∧ p.2.pred ≠ []
  increment : ∃ p ∈ (AutoCommit.ofDoc doc).log, p.2.action.isIncrement = true ∧ p.2.pred ≠ []
  plain : (AutoCommit.ofDoc doc).log.Plain

theorem exists_receivedDoc : ∃ doc, Received doc := by
  obtain ⟨maker, doc, c₁, c₂, hm, hch, -, hdoc, happ, ha, ha₁, hs₁, hops₁, ha₂, hs₂, hops₂⟩ :=
    exists_received
  have hmem : ∀ c, c ∈ doc.changeGraph.changes ↔ c = c₁ ∨ c = c₂ := fun c => by
    rw [mem_changes_iff, happ, ← mem_changes_iff, hch, List.mem_pair]
  have hlog : ∀ p, p ∈ (AutoCommit.ofDoc doc).log ↔
      p ∈ issued 1 1 firstOps ∨ p ∈ issued 3 2 laterOps := by
    intro p
    rw [AutoCommit.log_ofDoc, happ, applied_eq_hashesOf, hch, logAt_hashesOf]
    simp only [Set.mem_ofPred_eq, List.flatMap_cons, List.flatMap_nil, List.append_nil,
      List.mem_append, Change.identified, ha₁, hs₁, hops₁, ha₂, hs₂, hops₂]
  have hids₁ : issued 1 1 firstOps = [(.new 1 1, ⟨none, .map "x", false, .put (.int 1), []⟩),
      (.new 2 1, ⟨none, .map "n", false, .put (.counter 5), []⟩)] := rfl
  have hids₂ : issued 3 2 laterOps = [(.new 3 2, ⟨none, .map "x", false, .delete, [.new 1 1]⟩),
      (.new 4 2, ⟨none, .map "n", false, .increment 2, [.new 2 1]⟩)] := rfl
  refine ⟨doc, hdoc, ⟨fun hnil => ?_, fun c hc => ?_⟩,
    ⟨(.new 3 2, ⟨none, .map "x", false, .delete, [.new 1 1]⟩), (hlog _).mpr (Or.inr ?_), rfl, ?_⟩,
    ⟨(.new 4 2, ⟨none, .map "n", false, .increment 2, [.new 2 1]⟩), (hlog _).mpr (Or.inr ?_), rfl,
      ?_⟩, fun p hp hinc => ?_⟩
  · exact absurd ((hmem c₁).mpr (Or.inl rfl)) (hnil ▸ List.not_mem_nil)
  · rw [ha]
    rcases (hmem c).mp hc with rfl | rfl
    · rw [ha₁]
      decide
    · rw [ha₂]
      decide
  · exact hids₂ ▸ List.mem_cons_self
  · exact List.cons_ne_nil _ _
  · exact hids₂ ▸ List.mem_cons_of_mem _ List.mem_cons_self
  · exact List.cons_ne_nil _ _
  · -- the one increment names the counter
    rw [hlog, hids₁, hids₂] at hp
    simp only [List.mem_cons, List.not_mem_nil, or_false] at hp
    rcases hp with (rfl | rfl) | (rfl | rfl)
    · cases hinc
    · cases hinc
    · cases hinc
    · refine ⟨⟨"n", rfl⟩, fun q hq hpred => ?_⟩
      have hcounter := hdoc.kept.wf.unique q hq _ ((hlog _).mpr (Or.inl (hids₁ ▸
        List.mem_cons_of_mem _ List.mem_cons_self))) (List.mem_singleton.mp hpred)
      rw [hcounter]
      rfl

theorem rows_of_replica_received : ∃ doc, Received doc ∧ (AutoCommit.ofDoc doc).log.WF ∧
    Represents doc.ops (AutoCommit.ofDoc doc).log := by
  obtain ⟨doc, hdoc⟩ := exists_receivedDoc
  exact ⟨doc, hdoc, rows_of_replica hdoc.replica⟩

end AutomergeR
