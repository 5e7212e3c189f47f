import AutomergeR.ChangeBuilders

/-! # The changes of a loaded document

`ChangeCollector::build_changegraph`: a saved document has of a change its actor, its sequence
number, its greatest operation, and the positions of its dependencies. Each change is finished
with what its builder holds and with the hashes of the changes before it. Of what a replica
saves, this gives back its changes, and with them their hashes (`changes_of_replica`).
-/

namespace AutomergeR

open Automerge Causal

variable {H A : Type}

/-- `finish` of a change, with the hashes of a graph. -/
def BuildChangeMetadata.finish (builders : List (ChangeBuilder A)) (hashes : List H)
    (m : BuildChangeMetadata A) (index : ℕ) : Except CollectError (Change H A (Op A)) := do
  let x ← ChangeCollector.finishBuilder builders m index
  match m.deps.mapM fun i => hashes[i]? with
  | some deps => .ok ⟨m.actor, m.seq, x.1, deps, x.2.map Prod.snd⟩
  -- `graph.get_hash(..).unwrap()`
  | none => .error .panicked

namespace ChangeCollector

/-- The variables of the loop of `build_changegraph`. -/
structure Collected (H A : Type) where
  seq : A → ℕ
  maxOps : A → ℕ
  changes : List (Change H A (Op A))

variable [LinearOrder A] [ChangeHash H A (Op A)]

def finishNext (builders : List (ChangeBuilder A)) (s : Collected H A)
    (x : BuildChangeMetadata A × ℕ) : Except CollectError (Collected H A) :=
  if s.seq x.1.actor + 1 ≠ x.1.seq then .error .changesOutOfOrder
  else if x.1.startOp = 0 ∨ x.1.maxOp < s.maxOps x.1.actor then .error .incorrectMaxOp
  else do
    let change ← x.1.finish builders (s.changes.map Change.hash) x.2
    return { seq := Function.update s.seq x.1.actor x.1.seq
             maxOps := Function.update s.maxOps x.1.actor x.1.maxOp
             changes := s.changes ++ [change] }

/-- From `new` to the end of `build_changegraph`, without the graph. -/
def buildChangegraph (vecEncoderMax : ℕ) (metas : List (DocChangeMetadata A))
    (added : List (OpId A × Op A)) : Except CollectError (List (Change H A (Op A))) := do
  let changes ← newChanges metas
  match fill vecEncoderMax changes added with
  | some builders =>
    let s ← changes.zipIdx.foldlM (finishNext builders) ⟨fun _ => 0, fun _ => 0, []⟩
    return s.changes
  | none => .error .panicked

end ChangeCollector

/-! ## The loop -/

section

variable [ChangeHash H A (Op A)] {c d : Change H A (Op A)}

omit [ChangeHash H A (Op A)] in
theorem map_snd_identified (c : Change H A (Op A)) : c.identified.map Prod.snd = c.ops := by
  unfold Change.identified issued
  rw [List.map_map]
  exact List.zipIdx_map_fst ..

/-- A change is finished with the hashes of its dependencies. -/
theorem Change.finish_metadata [DecidableEq H] (done rest : List (Change H A (Op A)))
    {builders : List (ChangeBuilder A)} (m : BuildChangeMetadata A) {i : ℕ}
    (hm : m.toDocChangeMetadata = c.metadata (done ++ rest)) (hdeps : ∀ x ∈ c.deps, x ∈ hashesOf done)
    (h : ChangeCollector.finishBuilder builders m i = .ok (c.startOp, c.identified)) :
    m.finish builders (done.map Change.hash) i = .ok c := by
  have hhashes : (c.metadata (done ++ rest)).deps.mapM (fun i => (done.map Change.hash)[i]?) =
      some (c.deps.map id) := by
    refine mapM_map_eq_pure fun x hx => ?_
    have hmem : x ∈ done.map Change.hash := by
      obtain ⟨d, hd, rfl⟩ := hdeps x hx
      exact List.mem_map_of_mem hd
    rw [List.map_append, List.idxOf_append_of_mem hmem, List.getElem?_idxOf hmem]
    rfl
  rw [List.map_id] at hhashes
  unfold BuildChangeMetadata.finish
  rw [h, hm, hhashes]
  show Except.ok (Change.mk c.actor c.seq c.startOp c.deps (c.identified.map Prod.snd)) = _
  rw [map_snd_identified]

/-- What the loop has when some changes are done: these with what they depend on, and the last one
of each actor. -/
structure Done (s : ChangeCollector.Collected H A) (done : List (Change H A (Op A))) : Prop where
  changes : s.changes = done
  closed : Closed (Dep A (Op A)) (hashesOf done)
  seq : ∀ c ∈ done, c.seq ≤ s.seq c.actor
  last : ∀ a, s.seq a = 0 ∧ s.maxOps a = 0 ∨
    ∃ c ∈ done, c.actor = a ∧ c.seq = s.seq a ∧ c.maxOp = s.maxOps a

theorem Done.nil : Done (H := H) (A := A) ⟨fun _ => 0, fun _ => 0, []⟩ [] where
  changes := rfl
  closed := by
    rw [hashesOf_nil]
    exact fun _ _ _ hx => hx
  seq _ hc := by cases hc
  last _ := Or.inl ⟨rfl, rfl⟩

variable [LinearOrder A] {s : ChangeCollector.Collected H A} {done rest : List (Change H A (Op A))}
  (h : History (hashesOf (done ++ c :: rest)) A) (hdone : Done s done)

include h hdone

/-- An earlier change of the actor has a smaller number. -/
theorem Done.seq_lt (hnew : c.hash ∉ hashesOf done) (hd : d ∈ done) (hact : d.actor = c.actor) :
    d.seq < c.seq := by
  have hcT : c.hash ∈ hashesOf (done ++ c :: rest) := mem_hashesOf.mpr (by simp)
  have hdT : d.hash ∈ hashesOf (done ++ c :: rest) := mem_hashesOf.mpr (by simp [hd])
  rcases Nat.lt_trichotomy d.seq c.seq with hlt | hseq | hlt
  · exact hlt
  · exact absurd (mem_hashesOf.mpr (h.noClash d hdT c hcT hact hseq ▸ hd)) hnew
  · -- then it would depend on this one
    obtain ⟨y, hy, hanc⟩ := h.own_past hcT (d.seq - c.seq - 1) hdT hact.symm (by omega)
    have hyD : y ∈ hashesOf done := hdone.closed (dep_hash.mpr hy) (mem_hashesOf.mpr hd)
    exact absurd (hdone.closed.past_subset (Set.singleton_subset_iff.mpr hyD) ⟨y, rfl, hanc⟩) hnew

/-- The checks do not fail. -/
theorem Done.checks (hnew : c.hash ∉ hashesOf done) (hdeps : ∀ x ∈ c.deps, x ∈ hashesOf done) :
    s.seq c.actor + 1 = c.seq ∧ s.maxOps c.actor ≤ c.maxOp := by
  have hcT : c.hash ∈ hashesOf (done ++ c :: rest) := mem_hashesOf.mpr (by simp)
  obtain ⟨hpos, hprev⟩ := h.honest c hcT
  have hgrounded := h.grounded c hcT
  -- the change before it is done
  have hge : c.seq ≤ s.seq c.actor + 1 := by
    by_contra hgt
    obtain ⟨d, hd, hact, hseq⟩ := hprev (by omega)
    have hle := hdone.seq d (mem_hashesOf.mp (hdeps _ hd))
    rw [hact] at hle
    omega
  rcases hdone.last c.actor with ⟨hseq, hmax⟩ | ⟨e, he, hact, hseq, hmax⟩
  · omega
  · have hlt := hdone.seq_lt h hnew he hact
    have heT : e.hash ∈ hashesOf (done ++ c :: rest) := mem_hashesOf.mpr (by simp [he])
    have hbefore := hgrounded.after e (h.own_past heT (c.seq - e.seq - 1) hcT hact (by omega))
    have hlen := List.length_pos_iff.mpr hgrounded.nonempty
    refine ⟨by omega, ?_⟩
    rw [← hmax]
    unfold Change.maxOp at hbefore ⊢
    omega

omit [LinearOrder A] h in
theorem Done.snoc [DecidableEq A] (hnew : c.hash ∉ hashesOf done)
    (hdeps : ∀ x ∈ c.deps, x ∈ hashesOf done) (hseq : s.seq c.actor + 1 = c.seq) :
    Done ⟨Function.update s.seq c.actor c.seq, Function.update s.maxOps c.actor c.maxOp, done ++ [c]⟩
      (done ++ [c]) where
  changes := rfl
  closed := by
    rw [hashesOf_append]
    exact Deliverable.closed (S := hashesOf done) ⟨hnew, hdeps, trivial⟩ hdone.closed
  seq d hd := by
    dsimp only
    rcases List.mem_append.mp hd with hd | hd
    · have hle := hdone.seq d hd
      by_cases hact : d.actor = c.actor
      · rw [hact] at hle
        rw [hact, Function.update_self]
        omega
      · rwa [Function.update_of_ne hact]
    · rw [List.mem_singleton.mp hd, Function.update_self]
  last a := by
    dsimp only
    by_cases hact : a = c.actor
    · subst hact
      rw [Function.update_self, Function.update_self]
      exact Or.inr ⟨c, by simp, rfl, rfl, rfl⟩
    · rw [Function.update_of_ne hact, Function.update_of_ne hact]
      refine (hdone.last a).imp_right fun ⟨d, hd, hrest⟩ => ⟨d, ?_, hrest⟩
      exact List.mem_append_left _ hd

end

section

variable [DecidableEq H] [LinearOrder A] [ChangeHash H A (Op A)]
  {changes : List (Change H A (Op A))} {start : Change H A (Op A) → ℕ}

/-- **The changes are finished as they were.** -/
theorem History.finish (h : History (hashesOf changes) A) (hdel : Deliverable ∅ changes)
    (hpos : ∀ c ∈ changes, start c ≠ 0) {builders : List (ChangeBuilder A)}
    (hfinish : ∀ i c, changes[i]? = some c →
      ChangeCollector.finishBuilder builders ⟨c.metadata changes, start c⟩ i =
        .ok (c.startOp, c.identified)) :
    ∃ s, (metadataOf changes start changes).zipIdx.foldlM (ChangeCollector.finishNext builders)
      ⟨fun _ => 0, fun _ => 0, []⟩ = .ok s ∧ Done s changes := by
  have hloop : ∀ (rest done : List (Change H A (Op A))) (s : ChangeCollector.Collected H A),
      changes = done ++ rest → Deliverable (hashesOf done) rest → Done s done →
        ∃ s', ((metadataOf changes start rest).zipIdx done.length).foldlM
          (ChangeCollector.finishNext builders) s = .ok s' ∧ Done s' changes := by
    intro rest
    induction rest with
    | nil =>
      intro done s heq _ hdone
      rw [List.append_nil] at heq
      exact ⟨s, rfl, heq ▸ hdone⟩
    | cons c rest ih =>
      intro done s heq ⟨hnew, hdeps, hrest⟩ hdone
      have hget : changes[done.length]? = some c := by
        rw [heq]
        simp
      have hc := List.mem_of_getElem? hget
      obtain ⟨hseq, hmax⟩ := Done.checks (heq ▸ h) hdone hnew hdeps
      have hstep : ChangeCollector.finishNext builders s
          (⟨c.metadata changes, start c⟩, done.length) =
            .ok ⟨Function.update s.seq c.actor c.seq, Function.update s.maxOps c.actor c.maxOp,
              done ++ [c]⟩ := by
        have hbuilt := Change.finish_metadata done (c :: rest)
          ⟨c.metadata changes, start c⟩ (by rw [heq]) hdeps (hfinish _ c hget)
        unfold ChangeCollector.finishNext
        rw [hdone.changes, if_neg fun hne => hne hseq,
          if_neg fun hor => hor.elim (hpos c hc) (not_lt.mpr hmax), hbuilt]
        rfl
      obtain ⟨s', hs', hend⟩ := ih (done ++ [c]) _ (by rw [heq]; simp)
        (by rwa [hashesOf_append, hashesOf_cons, hashesOf_nil, Set.union_insert, Set.union_empty])
        (Done.snoc hdone hnew hdeps hseq)
      refine ⟨s', ?_, hend⟩
      rw [List.length_append, List.length_singleton] at hs'
      unfold metadataOf at hs' ⊢
      rw [List.map_cons, List.zipIdx_cons, List.foldlM_cons, hstep]
      exact hs'
  exact hloop changes [] _ rfl (by rwa [hashesOf_nil]) .nil

end

section

variable [LinearOrder H] [LinearOrder A] [ChangeHash H A (Op A)]
  {reconstruct : List (Change H A (Op A)) → OpSet A} {n : ℕ}

/-- **A replica that is saved and loaded has its changes again**, where increments are made to
counters of maps only, and in whatever order the operations are added: no check and no assertion
fails, and every change is as it was, in the same order. -/
theorem changes_of_replica {doc : Automerge (columns (H := H) reconstruct n)}
    (h : Replica (.ofDoc doc)) (hplain : (AutoCommit.ofDoc doc).log.Plain)
    {added : List (OpId A × Op A)}
    (hadded : added.Perm (ChangeCollector.collect (OpSet.docOps doc.ops))) :
    ChangeCollector.buildChangegraph n
      (doc.changeGraph.changes.map fun c => c.metadata doc.changeGraph.changes) added =
        .ok doc.changeGraph.changes := by
  have hhistory := h.history_ofDoc
  have hnodup : doc.changeGraph.changes.Nodup := List.Nodup.of_map _ h.wf.graph.nodup
  obtain ⟨hnd, hmem⟩ := h.mem_of_perm_collect hplain hadded
  obtain ⟨builders, hfill, hfinish⟩ := hhistory.fill (n := n)
    (hhistory.begins_depStart hnodup) hnd fun _ _ p _ _ => hmem p
  have hpos : ∀ c ∈ doc.changeGraph.changes, depStart doc.changeGraph.changes c ≠ 0 :=
    fun _ _ => Nat.succ_ne_zero _
  obtain ⟨s, hs, hdone⟩ := hhistory.finish h.wf.graph.deliverable hpos hfinish
  unfold ChangeCollector.buildChangegraph
  rw [hhistory.newChanges_eq hnodup]
  show (match ChangeCollector.fill n (metadataOf _ _ _) added with
    | some builders => _
    | none => _) = _
  rw [hfill]
  dsimp only
  rw [hs]
  exact congrArg Except.ok hdone.changes

/-- The operations come in the reverse order. -/
theorem changes_of_replica_received : ∃ doc, Received doc ∧
    ChangeCollector.buildChangegraph 4
      (doc.changeGraph.changes.map fun c => c.metadata doc.changeGraph.changes)
      (ChangeCollector.collect (OpSet.docOps doc.ops)).reverse = .ok doc.changeGraph.changes := by
  obtain ⟨doc, hdoc⟩ := exists_receivedDoc
  exact ⟨doc, hdoc, changes_of_replica hdoc.replica hdoc.plain (List.reverse_perm _)⟩

end

end AutomergeR
