import AutomergeR.DocumentInvariant

/-! # Applying changes

The one specification of `apply_changes` everything else uses: what a call that
returns has applied and what it still holds back (`applyChanges_ok`,
`applyChanges_error`), and that without a clash of two changes over one (actor,
sequence number) it does return (`applyChanges_total`). With the patch log of the
document it comes to the same, as long as the log fits (`applyChangesLogPatches_iff`).
-/

namespace AutomergeR

variable {H A P : Type} [ChangeHash H A P] [DecidableEq H] {M : OpSetModel H A P}

/-- How a call ends whose first loop left `err`. -/
def Outcome.after {D : Type} (err : Option (AutomergeError H A)) (doc : D) :
    Outcome H A D :=
  match err with
  | none => .ok doc
  | some e => .error e doc

omit [DecidableEq H] in
@[simp] theorem Outcome.panic_ne_after {D : Type} {err : Option (AutomergeError H A)} {doc : D} :
    (.panic : Outcome H A D) ≠ .after err doc := by
  cases err <;> exact fun h => by cases h

omit [DecidableEq H] in
theorem Outcome.after_inj {D : Type} {err err' : Option (AutomergeError H A)} {doc doc' : D} :
    Outcome.after err doc = .after err' doc' ↔ err = err' ∧ doc = doc' := by
  cases err <;> cases err' <;> simp [Outcome.after]

namespace Automerge

/-! ## The second loop -/

theorem swapRemove_perm {α : Type} {l : List α} {i : ℕ} {c : α} (h : l[i]? = some c) :
    l.Perm (c :: swapRemove l i) := by
  obtain ⟨hi, rfl⟩ := List.getElem?_eq_some_iff.mp h
  rcases List.eq_nil_or_concat l with rfl | ⟨init, last, rfl⟩
  · simp at hi
  · simp only [List.concat_eq_append] at hi ⊢
    have hlast : (init ++ [last]).getLast? = some last := by simp
    rw [swapRemove, hlast]
    simp only
    by_cases hlt : i < init.length
    · -- the last element takes the removed one's place
      rw [List.set_append_left _ _ hlt, List.dropLast_concat, List.getElem_append_left hlt]
      calc
        (init ++ [last]).Perm (last :: init) := List.perm_append_singleton _ _
        _ = last :: (init.take i ++ init[i] :: init.drop (i + 1)) := by
            rw [List.getElem_cons_drop, List.take_append_drop]
        _ |>.Perm (init[i] :: (init.take i ++ last :: init.drop (i + 1))) :=
            (List.perm_middle.cons last).trans
              ((List.Perm.swap _ _ _).trans (List.perm_middle.symm.cons _))
        _ = init[i] :: init.set i last := by
            rw [List.set_eq_take_append_cons_drop, if_pos hlt]
    · have hi' : i = init.length := by simp at hi; omega
      subst hi'
      simp [List.set_append_right, List.perm_append_singleton]

variable [LinearOrder A] {doc : Automerge M} {chap : BatchApply H A P} {c : Change H A P}

omit [LinearOrder A] in
theorem popNext_none (h : doc.popNextCausallyReadyChange chap = none) :
    ∀ c ∈ doc.queue, ∃ d ∈ c.deps, d ∉ doc.applied ∪ hashesOf chap := by
  intro c hc
  have hnone : doc.queue.findIdx? (doc.isCausallyReady chap) = none := by
    unfold popNextCausallyReadyChange at h
    rcases hi : doc.queue.findIdx? (doc.isCausallyReady chap) with _ | i
    · rfl
    · have hlt := (List.findIdx?_eq_some_iff_getElem.mp hi).1
      simp [hi, List.getElem?_eq_getElem hlt] at h
  have hnot := List.findIdx?_eq_none_iff.mp hnone c hc
  by_contra hall
  push Not at hall
  rw [isCausallyReady_iff.mpr hall] at hnot
  cases hnot

omit [LinearOrder A] in
theorem popNext_some {doc' : Automerge M}
    (h : doc.popNextCausallyReadyChange chap = some (c, doc')) :
    (∀ d ∈ c.deps, d ∈ doc.applied ∪ hashesOf chap) ∧
      ∃ queue, doc' = doc.withQueue queue ∧ doc.queue.Perm (c :: queue) := by
  unfold popNextCausallyReadyChange at h
  rcases hi : doc.queue.findIdx? (doc.isCausallyReady chap) with _ | i
  · simp [hi] at h
  · obtain ⟨hlt, hready, _⟩ := List.findIdx?_eq_some_iff_getElem.mp hi
    have hget : doc.queue[i]? = some doc.queue[i] := List.getElem?_eq_getElem hlt
    simp only [hi, hget, Option.bind_eq_bind, Option.bind_some, Option.some.injEq,
      Prod.mk.injEq] at h
    obtain ⟨rfl, rfl⟩ := h
    exact ⟨isCausallyReady_iff.mp hready, _, rfl, swapRemove_perm hget⟩

omit [LinearOrder A] [DecidableEq H] in
theorem Staging.pop (hst : doc.Staging chap) {queue : List (Change H A P)}
    (hperm : doc.queue.Perm (c :: queue)) (hready : ∀ d ∈ c.deps, d ∈ doc.applied ∪ hashesOf chap) :
    Staging (doc.withQueue queue) (chap ++ [c]) := by
  have hc : c ∈ doc.queue := hperm.mem_iff.mpr List.mem_cons_self
  have hnd : ((c :: queue).map Change.hash).Nodup := (hperm.map _).nodup_iff.mp hst.queue_nodup
  rw [List.map_cons, List.nodup_cons] at hnd
  refine ⟨deliverable_concat.mpr ⟨hst.deliverable, hst.queue_new c hc, hready⟩, hnd.2, ?_, ?_⟩
  · intro q hq hm
    rw [hashesOf_append, ← Set.union_assoc] at hm
    rcases hm with hm | ⟨b, hb, he⟩
    · exact hst.queue_new q (hperm.mem_iff.mpr (List.mem_cons_of_mem _ hq)) hm
    · rw [List.mem_singleton] at hb
      subst hb
      exact hnd.1 (List.mem_map.mpr ⟨q, hq, he.symm⟩)
  · rintro b (hb | hb)
    · rcases List.mem_append.mp hb with hb | hb
      · exact hst.honest b (Or.inl hb)
      · rw [List.mem_singleton] at hb
        exact hb ▸ hst.honest c (Or.inr hc)
    · exact hst.honest b (Or.inr (hperm.mem_iff.mpr (List.mem_cons_of_mem _ hb)))

/-- A popped change only fails the assertions of `push` if it clashes. -/
theorem push_of_popped (hst : doc.Staging chap) (hc : c ∈ doc.queue)
    (hclash : ∀ b ∈ chap, b.actor = c.actor → b.seq = c.seq → b = c) :
    chap.push c = some (chap ++ [c]) := by
  have hnot : c.hash ∉ hashesOf chap := fun h => hst.queue_new c hc (Or.inr h)
  have h1 : chap.hasActorSeq c = false := by
    rw [Bool.eq_false_iff]
    intro h
    simp only [BatchApply.hasActorSeq, List.any_eq_true, decide_eq_true_eq] at h
    obtain ⟨b, hb, ha, hs⟩ := h
    exact hnot (mem_hashesOf.mpr (hclash b hb ha hs ▸ hb))
  have h2 : chap.any (fun b => decide (b.hash = c.hash)) = false := by
    rw [Bool.eq_false_iff, Ne, any_hash_iff]
    exact hnot
  simp [BatchApply.push, h1, h2]

/-- `push` appends when it returns. -/
theorem push_eq_some {chap' : BatchApply H A P} (h : chap.push c = some chap') :
    chap' = chap ++ [c] := by
  unfold BatchApply.push at h
  split at h
  · cases h
  · simpa using h.symm

/-- **The second loop** moves changes from the queue to the batch, until no queued change
is ready. -/
theorem drainQueue_moves : ∀ (fuel : ℕ) (doc : Automerge M) (chap : BatchApply H A P) {r},
    doc.drainQueue fuel chap = some r → ∃ added queue,
      r = (doc.withQueue queue, chap ++ added) ∧ doc.queue.Perm (added ++ queue) ∧
      (doc.Staging chap → (doc.withQueue queue).Staging (chap ++ added)) ∧
      (doc.queue.length ≤ fuel →
        ∀ c ∈ queue, ∃ d ∈ c.deps, d ∉ doc.applied ∪ hashesOf (chap ++ added))
  | 0, doc, chap, r, h => by
    rw [drainQueue, Option.some.injEq] at h
    refine ⟨[], doc.queue, by simp [← h], by simp, fun hst => by simpa using hst, fun hlen c hc => ?_⟩
    rw [List.eq_nil_of_length_eq_zero (by omega : doc.queue.length = 0)] at hc
    cases hc
  | fuel + 1, doc, chap, r, h => by
    rw [drainQueue] at h
    rcases hpop : doc.popNextCausallyReadyChange chap with _ | ⟨c, doc₁⟩
    · simp only [hpop, Option.some.injEq] at h
      exact ⟨[], doc.queue, by simp [← h], by simp, fun hst => by simpa using hst,
        fun _ => by simpa using popNext_none hpop⟩
    · obtain ⟨hready, queue₁, rfl, hperm⟩ := popNext_some hpop
      simp only [hpop, Option.bind_eq_bind, Option.bind_eq_some_iff] at h
      obtain ⟨chap₁, hpush, h⟩ := h
      rw [push_eq_some hpush] at h
      obtain ⟨added, queue, hr, hperm', hst', hall⟩ := drainQueue_moves fuel _ _ h
      refine ⟨c :: added, queue, by simpa using hr, hperm.trans (hperm'.cons c),
        fun hst => by simpa using hst' (hst.pop hperm hready), fun hlen => ?_⟩
      have hlen₁ : queue₁.length ≤ fuel := by
        have := hperm.length_eq
        simp only [List.length_cons] at this
        omega
      simpa using hall hlen₁

/-- Without a clash its assertions hold. -/
theorem drainQueue_total : ∀ (fuel : ℕ) (doc : Automerge M) (chap : BatchApply H A P),
    doc.Staging chap → NoClash {c | c ∈ chap ∨ c ∈ doc.queue} →
      ∃ r, doc.drainQueue fuel chap = some r
  | 0, doc, chap, _, _ => ⟨_, rfl⟩
  | fuel + 1, doc, chap, hst, hclash => by
    rw [drainQueue]
    rcases hpop : doc.popNextCausallyReadyChange chap with _ | ⟨c, doc₁⟩
    · exact ⟨_, rfl⟩
    · obtain ⟨hready, queue₁, rfl, hperm⟩ := popNext_some hpop
      have hc : c ∈ doc.queue := hperm.mem_iff.mpr List.mem_cons_self
      have hpush := push_of_popped hst hc fun b hb ha hs =>
        hclash b (Or.inl hb) c (Or.inr hc) ha hs
      have hsub : {b | b ∈ chap ++ [c] ∨ b ∈ queue₁} ⊆ {b | b ∈ chap ∨ b ∈ doc.queue} := by
        rintro b (hb | hb)
        · rcases List.mem_append.mp hb with hb | hb
          · exact Or.inl hb
          · rw [List.mem_singleton] at hb
            exact Or.inr (hb ▸ hc)
        · exact Or.inr (hperm.mem_iff.mpr (List.mem_cons_of_mem _ hb))
      obtain ⟨r, hr⟩ := drainQueue_total fuel _ _ (hst.pop hperm hready) (hclash.mono hsub)
      exact ⟨r, by simp [hpush, hr]⟩

/-! ## Entering the batch into the history -/

theorem addChange_isSome {g : ChangeGraph H A P} (hnew : c.hash ∉ g.hashes)
    (hdeps : ∀ d ∈ c.deps, d ∈ g.hashes) (hseq : g.seqForActor c.actor + 1 = c.seq) :
    ∃ g', g.addChange c = some g' := by
  have hknown : g.hasChange c.hash = false := by
    rw [Bool.eq_false_iff, Ne, ChangeGraph.hasChange_iff]
    exact hnew
  have hall : c.deps.all g.hasChange = true :=
    List.all_eq_true.mpr fun d hd => ChangeGraph.hasChange_iff.mpr (hdeps d hd)
  unfold ChangeGraph.addChange
  simp only [hknown, Bool.false_eq_true, if_false, hall, hseq, and_self, if_true]
  split <;> exact ⟨_, rfl⟩

/-- `update_history` for a new change: it is appended, and the heads stay the
heads. -/
theorem updateHistory_spec (hg : doc.changeGraph.WF) (hdeps : doc.deps = doc.changeGraph.heads)
    (hnew : c.hash ∉ doc.applied) {doc' : Automerge M} (h : doc.updateHistory c = some doc') :
    doc'.changeGraph.WF ∧ doc'.deps = doc'.changeGraph.heads ∧
      doc'.changeGraph.changes = doc.changeGraph.changes ++ [c] ∧ doc'.queue = doc.queue ∧
      doc'.actor = doc.actor ∧ doc'.ops = doc.ops ∧ doc'.maxOp = max doc.maxOp c.maxOp := by
  simp only [updateHistory, Option.bind_eq_bind, Option.bind_eq_some_iff, Option.some.injEq] at h
  obtain ⟨g', hg', rfl⟩ := h
  rcases hg.addChange_cases hg' with ⟨hmem, _⟩ | ⟨_, _, _, cache, rfl, hwf⟩
  · exact absurd hmem hnew
  · refine ⟨hwf, ?_, ?_, rfl, rfl, rfl, rfl⟩
    · show ChangeGraph.updateHeads doc.deps c = ChangeGraph.updateHeads doc.changeGraph.heads c
      rw [hdeps]
    · exact ChangeGraph.pushNode_changes

/-- The history part of a batch: appended in order; no panic unless two changes
clash. -/
theorem updateHistory_foldlM : ∀ (chap : List (Change H A P)) (doc : Automerge M),
    doc.changeGraph.WF → doc.deps = doc.changeGraph.heads → Deliverable doc.applied chap →
    (∀ c ∈ chap, c.Honest) →
    (∀ doc', chap.foldlM updateHistory doc = some doc' →
      doc'.changeGraph.WF ∧ doc'.deps = doc'.changeGraph.heads ∧
      doc'.changeGraph.changes = doc.changeGraph.changes ++ chap ∧ doc'.queue = doc.queue ∧
      doc'.actor = doc.actor ∧ doc'.ops = doc.ops) ∧
    (NoClash {c | c ∈ doc.changeGraph.changes ∨ c ∈ chap} →
      ∃ doc', chap.foldlM updateHistory doc = some doc')
  | [], doc, hg, hd, _, _ => by
    refine ⟨fun doc' h => ?_, fun _ => ⟨doc, rfl⟩⟩
    simp only [List.foldlM_nil, Option.pure_def, Option.some.injEq] at h
    subst h
    exact ⟨hg, hd, by simp, rfl, rfl, rfl⟩
  | c :: chap, doc, hg, hd, ⟨hnew, hdeps, hrest⟩, hh => by
    have hset : ∀ {doc₁ : Automerge M},
        doc₁.changeGraph.changes = doc.changeGraph.changes ++ [c] →
          doc₁.applied = insert c.hash doc.applied := by
      intro doc₁ h
      rw [applied_eq_hashesOf, applied_eq_hashesOf, h, hashesOf_append, hashesOf_cons,
        hashesOf_nil, Set.union_insert, Set.union_empty]
    constructor
    · intro doc' h
      rw [List.foldlM_cons, Option.bind_eq_bind, Option.bind_eq_some_iff] at h
      obtain ⟨doc₁, h₁, h⟩ := h
      obtain ⟨hg₁, hd₁, hch₁, hq₁, ha₁, ho₁, _⟩ := updateHistory_spec hg hd hnew h₁
      obtain ⟨hg', hd', hch', hq', ha', ho'⟩ := (updateHistory_foldlM chap doc₁ hg₁ hd₁
        (hset hch₁ ▸ hrest) fun b hb => hh b (List.mem_cons_of_mem _ hb)).1 doc' h
      exact ⟨hg', hd', by rw [hch', hch₁]; simp, hq'.trans hq₁, ha'.trans ha₁, ho'.trans ho₁⟩
    · intro hclash
      have hseq := hg.next_seq (hh c List.mem_cons_self) hdeps hnew fun b hb ha hs =>
        hclash b (Or.inl hb) c (Or.inr List.mem_cons_self) ha hs
      obtain ⟨g', hg'⟩ := addChange_isSome hnew hdeps hseq
      have h₁ : doc.updateHistory c = some { doc with
          maxOp := max doc.maxOp c.maxOp
          deps := ChangeGraph.updateHeads doc.deps c
          changeGraph := g' } := by
        simp [updateHistory, hg']
      obtain ⟨hg₁, hd₁, hch₁, _⟩ := updateHistory_spec hg hd hnew h₁
      obtain ⟨doc', h⟩ := (updateHistory_foldlM chap _ hg₁ hd₁ (hset hch₁ ▸ hrest)
        fun b hb => hh b (List.mem_cons_of_mem _ hb)).2 (hclash.mono fun b hb => by
          rw [Set.mem_ofPred_eq, hch₁, List.mem_append, List.mem_singleton] at hb
          rw [Set.mem_ofPred_eq, List.mem_cons]
          tauto)
      exact ⟨doc', by rw [List.foldlM_cons, h₁]; exact h⟩

/-! ## What a call collects -/

/-- The two loops: the batch, what the queue is then, and the error that ended the first. -/
def collectChanges (doc : Automerge M) (changes : List (Change H A P)) :
    Option (Automerge M × BatchApply H A P × Option (AutomergeError H A)) :=
  match doc.stageChanges [] changes with
  | none => none
  | some (doc, chap, some e) => some (doc, chap, some e)
  | some (doc, chap, none) =>
    (doc.drainQueue doc.queue.length chap).map fun (doc, chap) => (doc, chap, none)

/-- A call applies what it collects. -/
theorem applyChangesLogPatches_collect (doc : Automerge M) (log : PatchLog A)
    (changes : List (Change H A P)) : doc.applyChangesLogPatches log changes =
      match doc.collectChanges changes with
      | none => .panic
      | some (staged, chap, err) =>
        match staged.applyBatch log chap with
        | none => .panic
        | some applied => .after err applied := by
  unfold applyChangesLogPatches collectChanges
  rcases doc.stageChanges [] changes with _ | ⟨staged, chap, _ | e⟩
  · rfl
  · dsimp only
    cases staged.drainQueue staged.queue.length chap <;> rfl
  · rfl

theorem applyBatch_eq_some {staged doc' : Automerge M} {log log' : PatchLog A}
    {chap : BatchApply H A P} : staged.applyBatch log chap = some (doc', log') ↔
      staged.importBatch chap = some doc' ∧
        log.migrateActors (staged.insertNewActors chap) = some log' := by
  unfold applyBatch
  cases log.migrateActors (staged.insertNewActors chap) <;>
    cases staged.importBatch chap <;> simp [and_comm]

/-- The patch log has to follow. -/
theorem applyChangesLogPatches_eq {doc doc' : Automerge M} {log log' : PatchLog A}
    {changes : List (Change H A P)} {err : Option (AutomergeError H A)} :
    doc.applyChangesLogPatches log changes = .after err (doc', log') ↔
      ∃ staged chap, doc.collectChanges changes = some (staged, chap, err) ∧
        staged.importBatch chap = some doc' ∧
        log.migrateActors (staged.insertNewActors chap) = some log' := by
  simp only [← applyBatch_eq_some]
  rw [applyChangesLogPatches_collect]
  rcases doc.collectChanges changes with _ | ⟨staged, chap, err'⟩
  · simp
  · dsimp only
    rcases hbatch : staged.applyBatch log chap with _ | ⟨d, l⟩
    · simp [hbatch]
    · simp [Outcome.after_inj, hbatch]

theorem applyChanges_eq {doc doc' : Automerge M} {changes : List (Change H A P)}
    {err : Option (AutomergeError H A)} : doc.applyChanges changes = .after err doc' ↔
      ∃ staged chap, doc.collectChanges changes = some (staged, chap, err) ∧
        staged.importBatch chap = some doc' := by
  have hmap : doc.applyChanges changes = .after err doc' ↔
      ∃ log', doc.applyChangesLogPatches .inactive changes = .after err (doc', log') := by
    unfold applyChanges
    rcases doc.applyChangesLogPatches .inactive changes with ⟨d, l⟩ | ⟨e, d, l⟩ | _ <;>
      cases err <;> simp [Outcome.map, Outcome.after]
  simp only [hmap, applyChangesLogPatches_eq, PatchLog.migrateActors_inactive]
  exact ⟨fun ⟨_, staged, chap, hcollect, himport, _⟩ => ⟨staged, chap, hcollect, himport⟩,
    fun ⟨staged, chap, hcollect, himport⟩ => ⟨_, staged, chap, hcollect, himport, rfl⟩⟩

/-- What a call does to the document does not depend on the patch log. -/
theorem applyChanges_of_logged {doc doc' : Automerge M} {log log' : PatchLog A}
    {changes : List (Change H A P)} {err : Option (AutomergeError H A)}
    (h : doc.applyChangesLogPatches log changes = .after err (doc', log')) :
    doc.applyChanges changes = .after err doc' := by
  obtain ⟨staged, chap, hcollect, himport, -⟩ := applyChangesLogPatches_eq.mp h
  exact applyChanges_eq.mpr ⟨staged, chap, hcollect, himport⟩

omit [LinearOrder A] [DecidableEq H] in
theorem hashesOf_perm {cs ds : List (Change H A P)} (h : cs.Perm ds) : hashesOf cs = hashesOf ds :=
  Set.ext fun x => by simp only [hashesOf, Set.mem_ofPred_eq, h.mem_iff]

/-- A change of the list that is new to the document, and to the list before it, has a
sequence number that is taken. -/
def Clashes (doc : Automerge M) (changes : List (Change H A P)) : Prop :=
  ClashesWith doc.changeGraph doc.known changes

/-- The batch and the queue of a call, and what they say about its error. -/
theorem collectChanges_receives {staged : Automerge M} {changes : List (Change H A P)}
    {err : Option (AutomergeError H A)} (hg : doc.changeGraph.WF)
    (h : doc.collectChanges changes = some (staged, chap, err)) :
    ∃ queue, staged = doc.withQueue queue ∧ (err ≠ none ↔ doc.Clashes changes) ∧
      (err = none →
        doc.applied ∪ hashesOf chap ∪ hashesOf queue = doc.known ∪ hashesOf changes ∧
          ∀ c ∈ queue, ∃ d ∈ c.deps, d ∉ doc.applied ∪ hashesOf chap) := by
  obtain ⟨waiting, added, err', hstage, hw, ha, -, hall, herr, -⟩ :=
    stageChanges_spec changes doc [] hg
  rw [List.nil_append] at hstage hall
  rw [hashesOf_nil, Set.union_empty] at herr
  rw [collectChanges, hstage] at h
  rcases err' with _ | e
  · obtain ⟨⟨drained, chap'⟩, hdrain, hr⟩ := Option.map_eq_some_iff.mp h
    obtain ⟨woken, queue, hr', hperm, -, hsettled⟩ := drainQueue_moves _ _ added hdrain
    cases hr'
    cases hr
    refine ⟨queue, withQueue_withQueue .., herr, fun _ => ⟨?_, hsettled le_rfl⟩⟩
    have hstaged : hashesOf doc.queue ∪ hashesOf waiting = hashesOf woken ∪ hashesOf queue := by
      rw [← hashesOf_append, ← hashesOf_append]
      exact hashesOf_perm hperm
    have hgiven : doc.applied ∪ hashesOf added ∪ (hashesOf doc.queue ∪ hashesOf waiting) =
        doc.known ∪ hashesOf changes := by
      refine Set.Subset.antisymm ?_ (Set.union_subset ?_ ?_)
      · refine Set.union_subset (Set.union_subset ?_ ?_) (Set.union_subset ?_ ?_)
        · exact fun x hx => Or.inl (Or.inl hx)
        · exact fun x hx => Or.inr (hashesOf_mono ha hx)
        · exact fun x hx => Or.inl (Or.inr hx)
        · exact fun x hx => Or.inr (hashesOf_mono hw hx)
      · exact Set.union_subset (fun x hx => Or.inl (Or.inl hx)) fun x hx => Or.inr (Or.inl hx)
      · rw [← hashesOf_append]
        exact hall rfl
    rw [← hgiven, hstaged, hashesOf_append]
    simp only [Set.union_assoc]
  · cases h
    exact ⟨_, rfl, herr, fun h => by cases h⟩

/-! ## The whole call -/

/-- What applying the batch `chap`, taken from queue and arguments, does. -/
structure Extends (doc doc' : Automerge M) (changes chap : List (Change H A P)) : Prop where
  wf : doc'.WF
  deliverable : Deliverable doc.applied chap
  changes_eq : doc'.changeGraph.changes = doc.changeGraph.changes ++ chap
  ops : doc'.ops = M.applyChanges doc.ops chap
  actor : doc'.actor = doc.actor
  batch_from : ∀ c ∈ chap, c ∈ doc.queue ∨ c ∈ changes
  queue_from : ∀ c ∈ doc'.queue, c ∈ doc.queue ∨ c ∈ changes

omit [LinearOrder A] in
theorem Extends.applied_eq {doc' : Automerge M} {changes : List (Change H A P)}
    (h : doc.Extends doc' changes chap) : doc'.applied = doc.applied ∪ hashesOf chap := by
  rw [applied_eq_hashesOf, applied_eq_hashesOf, h.changes_eq, hashesOf_append]

omit [LinearOrder A] in
theorem Extends.applied_subset {doc' : Automerge M} {changes : List (Change H A P)}
    (h : doc.Extends doc' changes chap) : doc.applied ⊆ doc'.applied :=
  h.applied_eq ▸ Set.subset_union_left

/-- A staged document, its batch applied. -/
theorem importBatch_spec (staged : Automerge M) (hg : staged.changeGraph.WF)
    (hd : staged.deps = staged.changeGraph.heads) (hst : staged.Staging chap)
    (hh : ∀ c ∈ staged.changeGraph.changes, c.Honest) :
    (∀ doc', staged.importBatch chap = some doc' →
      doc'.WF ∧ doc'.changeGraph.changes = staged.changeGraph.changes ++ chap ∧
      doc'.ops = M.applyChanges staged.ops chap ∧ doc'.actor = staged.actor ∧
      doc'.queue = staged.queue) ∧
    (NoClash {c | c ∈ staged.changeGraph.changes ∨ c ∈ chap} →
      ∃ doc', staged.importBatch chap = some doc') := by
  obtain ⟨hspec, hclean⟩ := updateHistory_foldlM chap staged hg hd hst.deliverable
    fun c hc => hst.honest c (Or.inl hc)
  constructor
  · intro doc' h
    simp only [importBatch, Option.bind_eq_bind, Option.bind_eq_some_iff, Option.some.injEq] at h
    obtain ⟨doc₁, h₁, rfl⟩ := h
    obtain ⟨hg', hd', hch, hq, ha, ho⟩ := hspec doc₁ h₁
    have happ : doc₁.applied = staged.applied ∪ hashesOf chap := by
      rw [applied_eq_hashesOf, applied_eq_hashesOf, hch, hashesOf_append]
    refine ⟨⟨hg', hd', ?_, ?_, ?_⟩, hch, by rw [ho], ha, hq⟩
    · show (doc₁.queue.map Change.hash).Nodup
      rw [hq]
      exact hst.queue_nodup
    · intro c hc
      show c.hash ∉ doc₁.applied
      rw [happ]
      exact hst.queue_new c (hq ▸ hc)
    · rintro c (hc | hc)
      · have hc' : c ∈ staged.changeGraph.changes ++ chap := hch ▸ hc
        rcases List.mem_append.mp hc' with hc' | hc'
        · exact hh c hc'
        · exact hst.honest c (Or.inl hc')
      · exact hst.honest c (Or.inr (hq ▸ hc))
  · intro hclash
    obtain ⟨doc', h⟩ := hclean hclash
    exact ⟨{ doc' with ops := M.applyChanges doc'.ops chap }, by simp [importBatch, h]⟩

/-- What a call collects, of queue and arguments; `err` is the error that broke it off. -/
structure Collects (doc : Automerge M) (changes queue chap : List (Change H A P))
    (err : Option (AutomergeError H A)) : Prop where
  staging : (doc.withQueue queue).Staging chap
  batch_from : ∀ c ∈ chap, c ∈ doc.queue ∨ c ∈ changes
  queue_from : ∀ c ∈ queue, c ∈ doc.queue ∨ c ∈ changes
  settled : err = none → ∀ c ∈ queue, ∃ d ∈ c.deps, d ∉ doc.applied ∪ hashesOf chap
  received : err = none →
    doc.applied ∪ hashesOf chap ∪ hashesOf queue = doc.known ∪ hashesOf changes

variable {changes : List (Change H A P)}

theorem collectChanges_spec (h : doc.WF) (hh : ∀ c ∈ changes, c.Honest) {staged : Automerge M}
    {err : Option (AutomergeError H A)} (heq : doc.collectChanges changes = some (staged, chap, err)) :
    ∃ queue, staged = doc.withQueue queue ∧ doc.Collects changes queue chap err := by
  obtain ⟨queue, rfl, -, hall⟩ := collectChanges_receives h.graph heq
  obtain ⟨waiting, added, err', hstage, hw, ha, -, -, -, hst⟩ :=
    stageChanges_spec changes doc [] h.graph
  have hst := hst h.staging hh
  rw [List.nil_append] at hst hstage
  rw [collectChanges, hstage] at heq
  have hwaiting : ∀ c ∈ doc.queue ++ waiting, c ∈ doc.queue ∨ c ∈ changes := fun c hc =>
    (List.mem_append.mp hc).imp_right fun hc => hw hc
  refine ⟨queue, rfl, ?_⟩
  rcases err' with _ | e
  · obtain ⟨⟨drained, chap'⟩, hdrain, hr⟩ := Option.map_eq_some_iff.mp heq
    obtain ⟨woken, queue', hr', hperm, hst₁, -⟩ := drainQueue_moves _ _ added hdrain
    rw [withQueue_withQueue] at hr' hst₁
    obtain ⟨rfl, rfl⟩ := Prod.mk.inj hr'
    cases hr
    have hmem : ∀ c, c ∈ woken ∨ c ∈ queue → c ∈ doc.queue ∨ c ∈ changes := fun c hc =>
      hwaiting c (hperm.mem_iff.mpr (List.mem_append.mpr hc))
    refine ⟨hst₁ hst, fun c hc => ?_, fun c hc => hmem c (Or.inr hc), fun h => (hall h).2,
      fun h => (hall h).1⟩
    exact (List.mem_append.mp hc).elim (fun hc => Or.inr (ha hc)) fun hc => hmem c (Or.inl hc)
  · cases heq
    exact ⟨hst, fun c hc => Or.inr (ha hc), hwaiting, fun h => (hall h).2, fun h => (hall h).1⟩

/-- What was collected, once applied, extends the document. -/
theorem Collects.extends (h : doc.WF) {queue : List (Change H A P)}
    {err : Option (AutomergeError H A)} (hcol : doc.Collects changes queue chap err)
    {doc' : Automerge M} (himport : (doc.withQueue queue).importBatch chap = some doc') :
    doc.Extends doc' changes chap ∧ doc'.queue = queue := by
  obtain ⟨hwf, hch, hops, hact, hq⟩ := (importBatch_spec (doc.withQueue queue) h.graph h.deps_eq
    hcol.staging fun c hc => h.honest c (Or.inl hc)).1 doc' himport
  exact ⟨⟨hwf, hcol.staging.deliverable, hch, hops, hact, hcol.batch_from,
    fun c hc => hcol.queue_from c (hq.subst hc)⟩, hq⟩

/-- **A call that succeeds** has received all it was given and left nothing ready
in the queue. -/
theorem applyChanges_ok (h : doc.WF) (hh : ∀ c ∈ changes, c.Honest) {doc' : Automerge M}
    (heq : doc.applyChanges changes = .ok doc') :
    ∃ chap, doc.Extends doc' changes chap ∧ doc'.Settled ∧
      doc'.known = doc.known ∪ hashesOf changes := by
  obtain ⟨staged, chap, hcollect, himport⟩ := applyChanges_eq.mp
    (show doc.applyChanges changes = .after none doc' from heq)
  obtain ⟨queue, rfl, hcol⟩ := collectChanges_spec h hh hcollect
  obtain ⟨hext, hq⟩ := hcol.extends h himport
  refine ⟨chap, hext, fun c hc => ?_, ?_⟩
  · rw [hext.applied_eq]
    exact hcol.settled rfl c (hq ▸ hc)
  · rw [known, held, hq, hext.applied_eq]
    exact hcol.received rfl

/-- **A call that reports an error** leaves a well-formed document behind, with
the batch collected before the error applied. -/
theorem applyChanges_error (h : doc.WF) (hh : ∀ c ∈ changes, c.Honest) {doc' : Automerge M}
    {e : AutomergeError H A} (heq : doc.applyChanges changes = .error e doc') :
    ∃ chap, doc.Extends doc' changes chap := by
  obtain ⟨staged, chap, hcollect, himport⟩ := applyChanges_eq.mp
    (show doc.applyChanges changes = .after (some e) doc' from heq)
  obtain ⟨queue, rfl, hcol⟩ := collectChanges_spec h hh hcollect
  exact ⟨chap, (hcol.extends h himport).1⟩

/-- **Without a clash** of two changes over one (actor, sequence number) the call
succeeds. -/
theorem applyChanges_total (h : doc.WF) (hh : ∀ c ∈ changes, c.Honest)
    (hclash : NoClash {c | c ∈ doc.changeGraph.changes ∨ c ∈ doc.queue ∨ c ∈ changes}) :
    ∃ doc', doc.applyChanges changes = .ok doc' := by
  obtain ⟨waiting, added, err, hstage, hw, ha, -, -, herr, hst⟩ :=
    stageChanges_spec changes doc [] h.graph
  have hst := hst h.staging hh
  obtain rfl : err = none := by
    by_contra hne
    refine not_clashesWith h.graph changes _ hh (fun c hc => ?_) (hclash.mono fun c hc => ?_)
      (herr.mp hne)
    · exact Or.inl (Or.inl (ChangeGraph.hash_mem_hashes.mpr hc))
    · rcases hc with ((hc | hc) | hc) | hc
      · exact Or.inl (ChangeGraph.hash_mem_hashes.mp hc)
      · exact absurd (mem_hashesOf.mp hc) List.not_mem_nil
      · exact Or.inr (Or.inl (mem_hashesOf.mp hc))
      · exact Or.inr (Or.inr hc)
  rw [List.nil_append] at hst hstage
  have hqueue : ∀ c ∈ doc.queue ++ waiting, c ∈ doc.queue ∨ c ∈ changes := fun c hc =>
    (List.mem_append.mp hc).imp_right fun hc => hw hc
  obtain ⟨⟨staged, chap⟩, hdrain⟩ := drainQueue_total (doc.queue ++ waiting).length _ added hst
    (hclash.mono fun c hc => by
      rcases hc with hc | hc
      · exact Or.inr (Or.inr (ha hc))
      · exact Or.inr (hqueue c hc))
  have hcollect : doc.collectChanges changes = some (staged, chap, none) := by
    rw [collectChanges, hstage]
    simp only [withQueue_queue, hdrain, Option.map_some]
  obtain ⟨queue, rfl, hcol⟩ := collectChanges_spec h hh hcollect
  obtain ⟨doc', himport⟩ := (importBatch_spec (doc.withQueue queue) h.graph h.deps_eq hcol.staging
    fun c hc => h.honest c (Or.inl hc)).2 (hclash.mono fun c hc =>
      hc.imp_right fun hc => hcol.batch_from c hc)
  exact ⟨doc', applyChanges_eq.mpr ⟨_, chap, hcollect, himport⟩⟩

/-! ## The patch log -/

theorem mem_actors (h : doc.changeGraph.WF) {a : A} :
    a ∈ doc.actors ↔ ∃ c ∈ doc.changeGraph.changes, c.actor = a := by
  rw [actors, List.mem_toFinset, h.indexed.mem_actors]
  constructor
  · intro hne
    obtain ⟨c, hc, ha, -⟩ := h.indexed.exists_seq (a := a) (n := 1) Nat.one_pos
      (List.length_pos_iff.mpr hne)
    exact ⟨c, hc, ha⟩
  · rintro ⟨c, hc, rfl⟩ hnil
    have := h.indexed.seq_le hc
    rw [ChangeGraph.seqForActor, hnil, List.length_nil] at this
    omega

/-- The actors that a batch brings are those that have changes then: everyone's first
change is in the document or in the batch. -/
theorem Extends.insertNewActors {doc' : Automerge M} (h : doc.WF)
    (hext : doc.Extends doc' changes chap) : doc.insertNewActors chap = doc'.actors := by
  ext a
  rw [Automerge.insertNewActors, Finset.mem_union, List.mem_toFinset, List.mem_map, mem_actors h.graph,
    mem_actors hext.wf.graph, hext.changes_eq]
  constructor
  · rintro (⟨c, hc, rfl⟩ | ⟨c, hc, rfl⟩)
    · exact ⟨c, List.mem_append_left _ hc, rfl⟩
    · exact ⟨c, List.mem_append_right _ (List.mem_filter.mp hc).1, rfl⟩
  · rintro ⟨c, hc, rfl⟩
    have hle := hext.wf.graph.indexed.seq_le (hext.changes_eq ▸ hc)
    obtain ⟨b, hb, ha, hs⟩ := hext.wf.graph.indexed.exists_seq (a := c.actor) (n := 1) Nat.one_pos
      (by omega)
    rw [hext.changes_eq] at hb
    rcases List.mem_append.mp hb with hb | hb
    · exact Or.inl ⟨b, hb, ha⟩
    · exact Or.inr ⟨b, List.mem_filter.mpr ⟨hb, by simpa using hs⟩, ha⟩

/-- **With a patch log** a call does what it does without, if the log fits the actors that
the document has then. -/
theorem applyChangesLogPatches_iff (h : doc.WF) (hh : ∀ c ∈ changes, c.Honest)
    {doc' : Automerge M} {log log' : PatchLog A} {err : Option (AutomergeError H A)} :
    doc.applyChangesLogPatches log changes = .after err (doc', log') ↔
      doc.applyChanges changes = .after err doc' ∧ log.Fits doc'.actors ∧
        log' = ⟨log.actors ∪ doc'.actors⟩ := by
  rw [applyChangesLogPatches_eq, applyChanges_eq]
  have hactors : ∀ staged chap, doc.collectChanges changes = some (staged, chap, err) →
      staged.importBatch chap = some doc' → staged.insertNewActors chap = doc'.actors := by
    intro staged chap hcollect himport
    obtain ⟨queue, rfl, hcol⟩ := collectChanges_spec h hh hcollect
    exact (show doc.insertNewActors chap = _ from (hcol.extends h himport).1.insertNewActors h)
  constructor
  · rintro ⟨staged, chap, hcollect, himport, hlog⟩
    rw [hactors staged chap hcollect himport] at hlog
    exact ⟨⟨staged, chap, hcollect, himport⟩, PatchLog.migrateActors_eq_some.mp hlog⟩
  · rintro ⟨⟨staged, chap, hcollect, himport⟩, hlog⟩
    refine ⟨staged, chap, hcollect, himport, ?_⟩
    rw [hactors staged chap hcollect himport]
    exact PatchLog.migrateActors_eq_some.mpr hlog

theorem applyChangesLogPatches_panic (h : doc.WF) (hh : ∀ c ∈ changes, c.Honest)
    {doc' : Automerge M} {log : PatchLog A} {err : Option (AutomergeError H A)}
    (happ : doc.applyChanges changes = .after err doc') (hno : ¬ log.Fits doc'.actors) :
    doc.applyChangesLogPatches log changes = .panic := by
  have hreturned : ∀ err' d l, doc.applyChangesLogPatches log changes ≠ .after err' (d, l) := by
    intro err' d l hcall
    obtain ⟨happ', hfit, -⟩ := (applyChangesLogPatches_iff h hh).mp hcall
    obtain ⟨-, rfl⟩ := Outcome.after_inj.mp (happ.symm.trans happ')
    exact hno hfit
  rcases hcall : doc.applyChangesLogPatches log changes with ⟨d, l⟩ | ⟨e, d, l⟩ | _
  · exact absurd hcall (hreturned none d l)
  · exact absurd hcall (hreturned (some e) d l)
  · rfl

end Automerge

end AutomergeR
