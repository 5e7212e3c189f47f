import AutomergeR.ApplyChanges

/-! # Receiving any changes

Bytes from outside can hold changes that no replica makes. Nothing here asks the changes to
be honest: a call of `apply_changes` that comes back reports an error exactly if a change
clashes (`Clashes`), and otherwise has received everything and applied what its dependencies
allow (`applyChanges_receives`). A patch log comes along if the actors that only it has come
behind all others (`applyChangesLogPatches_of_follows`).
-/

namespace AutomergeR

variable {H A P : Type} [ChangeHash H A P] [DecidableEq H] [LinearOrder A] {M : OpSetModel H A P}

namespace Automerge

variable {doc doc' staged : Automerge M} {changes chap : List (Change H A P)}
  {err : Option (AutomergeError H A)}

/-! ## History and actors -/

theorem updateHistory_known (hg : doc.changeGraph.WF) {c : Change H A P}
    (h : doc.updateHistory c = some doc') :
    doc'.changeGraph.WF ∧ doc'.queue = doc.queue ∧ doc'.actor = doc.actor ∧
      doc'.applied = insert c.hash doc.applied := by
  simp only [updateHistory, Option.bind_eq_bind, Option.bind_eq_some_iff, Option.some.injEq] at h
  obtain ⟨g', hg', rfl⟩ := h
  refine ⟨hg.addChange hg', rfl, rfl, ?_⟩
  rcases hg.addChange_cases hg' with ⟨hmem, rfl⟩ | ⟨_, _, _, cache, rfl, _⟩
  · show doc.applied = insert c.hash doc.applied
    have hmem : c.hash ∈ doc.applied := hmem
    rw [Set.insert_eq_of_mem hmem]
  · ext x
    have hhashes : ((doc.changeGraph.pushNode c).withCache cache).hashes =
        doc.changeGraph.hashes ++ [c.hash] := ChangeGraph.pushNode_hashes
    simp [applied, hhashes, or_comm]

theorem foldlM_known : ∀ (chap : List (Change H A P)) (doc : Automerge M),
    doc.changeGraph.WF → ∀ doc', chap.foldlM updateHistory doc = some doc' →
      doc'.changeGraph.WF ∧ doc'.queue = doc.queue ∧ doc'.actor = doc.actor ∧
        doc'.applied = doc.applied ∪ hashesOf chap
  | [], doc, hg, doc', h => by
    cases h
    exact ⟨hg, rfl, rfl, by rw [hashesOf_nil, Set.union_empty]⟩
  | c :: chap, doc, hg, doc', h => by
    rw [List.foldlM_cons, Option.bind_eq_bind, Option.bind_eq_some_iff] at h
    obtain ⟨doc₁, h₁, h⟩ := h
    obtain ⟨hg₁, hq₁, ha₁, happ₁⟩ := updateHistory_known hg h₁
    obtain ⟨hg', hq', ha', happ'⟩ := foldlM_known chap doc₁ hg₁ doc' h
    refine ⟨hg', hq'.trans hq₁, ha'.trans ha₁, ?_⟩
    rw [happ', happ₁, hashesOf_cons, Set.insert_union, Set.union_insert]

theorem importBatch_known (hg : doc.changeGraph.WF) (h : doc.importBatch chap = some doc') :
    doc'.changeGraph.WF ∧ doc'.queue = doc.queue ∧ doc'.actor = doc.actor ∧
      doc'.applied = doc.applied ∪ hashesOf chap := by
  simp only [importBatch, Option.bind_eq_bind, Option.bind_eq_some_iff, Option.some.injEq] at h
  obtain ⟨doc₁, hfold, rfl⟩ := h
  exact foldlM_known chap doc hg doc₁ hfold

/-! ## The call -/

/-- **A call that comes back** reports an error exactly if a change clashes. Without one it
has received all changes, and those are applied whose whole past is there. -/
theorem applyChanges_receives (hg : doc.changeGraph.WF)
    (h : doc.applyChanges changes = .after err doc') :
    doc'.changeGraph.WF ∧ doc'.actor = doc.actor ∧ (err ≠ none ↔ doc.Clashes changes) ∧
      (err = none → doc'.known = doc.known ∪ hashesOf changes ∧
        doc'.applied = Causal.Core (Dep A P) doc'.known) := by
  rw [applyChanges_eq] at h
  obtain ⟨staged, chap, hcollect, himport⟩ := h
  obtain ⟨queue, rfl, herr, hall⟩ := collectChanges_receives hg hcollect
  obtain ⟨hg', hq, hact, happ⟩ := importBatch_known (by exact hg) himport
  refine ⟨hg', hact, herr, fun hnone => ?_⟩
  obtain ⟨hknown, hsettled⟩ := hall hnone
  have happ' : doc'.applied = doc.applied ∪ hashesOf chap := happ
  have hq' : doc'.queue = queue := hq
  refine ⟨?_, applied_eq_core hg' fun c hc => ?_⟩
  · rw [known, held, hq', happ']
    exact hknown
  · rw [happ']
    exact hsettled c (hq' ▸ hc)

/-! ## With a patch log -/

/-- Where the actors that only the log has come behind all others, it follows any batch. -/
theorem applyChangesLogPatches_of_follows (hg : doc.changeGraph.WF) {log : PatchLog A}
    {S : Set A} (hlog : log.Follows doc.actors S) (hall : ∀ a ∈ doc'.actors, a ∈ S)
    (h : doc.applyChanges changes = .after err doc') :
    doc.actors ⊆ doc'.actors ∧ ∃ log',
      doc.applyChangesLogPatches log changes = .after err (doc', log') ∧
        log'.actors ⊆ log.actors ∪ doc'.actors := by
  rw [applyChanges_eq] at h
  obtain ⟨staged, chap, hcollect, himport⟩ := h
  obtain ⟨queue, rfl, -, -⟩ := collectChanges_receives hg hcollect
  obtain ⟨hg', -, -, happ⟩ := importBatch_known (by exact hg) himport
  have happ' : doc'.applied = doc.applied ∪ hashesOf chap := happ
  have hmem : ∀ c : Change H A P, c ∈ doc.changeGraph.changes ∨ c ∈ chap →
      c.actor ∈ doc'.actors := by
    intro c hc
    refine (mem_actors hg').mpr ⟨c, ChangeGraph.hash_mem_hashes.mp ?_, rfl⟩
    show c.hash ∈ doc'.applied
    rw [happ']
    exact hc.imp (fun hc => ChangeGraph.hash_mem_hashes.mpr hc) mem_hashesOf.mpr
  have hmono : doc.actors ⊆ doc'.actors := fun a ha => by
    obtain ⟨c, hc, rfl⟩ := (mem_actors hg).mp ha
    exact hmem c (Or.inl hc)
  have hnew : doc.insertNewActors chap ⊆ doc'.actors := by
    refine Finset.union_subset hmono fun a ha => ?_
    obtain ⟨c, hc, rfl⟩ := List.mem_map.mp (List.mem_toFinset.mp ha)
    exact hmem c (Or.inr (List.mem_filter.mp hc).1)
  exact ⟨hmono, _, applyChangesLogPatches_eq.mpr ⟨_, chap, hcollect, himport,
    PatchLog.migrateActors_eq_some.mpr ⟨hlog.fits Finset.subset_union_left
      fun a ha => hall a (hnew ha), rfl⟩⟩, Finset.union_subset_union_right hnew⟩

/-- A log without actors that have left follows any batch. -/
theorem applyChangesLogPatches_of_subset (hg : doc.changeGraph.WF) {log : PatchLog A}
    (hlog : log.actors ⊆ doc.actors) (h : doc.applyChanges changes = .after err doc') :
    ∃ log', doc.applyChangesLogPatches log changes = .after err (doc', log') ∧
      log'.actors ⊆ doc'.actors := by
  obtain ⟨hmono, log', hlog', hsub⟩ := applyChangesLogPatches_of_follows (S := Set.univ) hg
    (PatchLog.follows_of_subset hlog) (fun _ _ => trivial) h
  exact ⟨log', hlog', hsub.trans (Finset.union_subset (hlog.trans hmono) subset_rfl)⟩

end Automerge

end AutomergeR
