import AutomergeR.Reachable

/-! # Selecting changes

What `get_changes`, `get_changes_by_hashes` and `get_changes_added` return on a
well-formed document: the complement of a past in insertion order
(`getChanges_eq_filter`), the changes asked for (`getChangesByHashes_spec`), and
the other document's surplus (`getChangesAdded_spec`). The collector gives every
change back as it was as long as no hash is asked for twice
(`fromBuildMeta_nodup`).
-/

namespace AutomergeR

variable {H A P : Type} [LinearOrder H] [LinearOrder A] [ChangeHash H A P]
  {M : OpSetModel H A P}

/-- No change comes before one of its dependencies. -/
def DepsFirst (cs : List (Change H A P)) : Prop := cs.Pairwise fun c d => d.hash ∉ c.deps

/-! ## The collector -/

omit [LinearOrder A] in
theorem fromBuildMeta_nodup (n : ℕ) : ∀ (cs : List (Change H A P)) (seen : List H),
    (cs.map Change.hash).Nodup → (∀ c ∈ cs, c.hash ∉ seen) →
    ChangeCollector.fromBuildMeta n cs seen = some cs
  | [], _, _, _ => rfl
  | c :: cs, seen, hnd, hseen => by
    rw [List.map_cons, List.nodup_cons] at hnd
    have hrest : ∀ d ∈ cs, d.hash ∉ c.hash :: seen := by
      intro d hd hmem
      rcases List.mem_cons.mp hmem with he | hmem
      · exact hnd.1 (he ▸ List.mem_map_of_mem hd)
      · exact hseen d (List.mem_cons_of_mem _ hd) hmem
    rw [ChangeCollector.fromBuildMeta, if_neg (hseen c List.mem_cons_self),
      fromBuildMeta_nodup n cs _ hnd.2 hrest]
    rfl

namespace ChangeGraph

variable {g : ChangeGraph H A P}

omit [LinearOrder A] in
/-- The changes at a list of hashes of the graph. -/
theorem WF.lookup_hashes (hg : g.WF) : ∀ (hashes : List H), (∀ h ∈ hashes, h ∈ g.hashes) →
    ∃ cs, (hashes.filterMap fun h => do
        let idx ← g.hashToIndex h
        g.changes[idx]?) = cs ∧ cs.map Change.hash = hashes ∧ cs ⊆ g.changes
  | [], _ => ⟨[], rfl, rfl, List.nil_subset _⟩
  | h :: hashes, hmem => by
    obtain ⟨cs, hcs, hmap, hsub⟩ := lookup_hashes hg hashes fun x hx =>
      hmem x (List.mem_cons_of_mem _ hx)
    obtain ⟨i, hi⟩ := hashToIndex_isSome.mp (hmem h List.mem_cons_self)
    have hih := (hashToIndex_eq_some hg.nodup).mp hi
    rw [hashes_getElem?, Option.map_eq_some_iff] at hih
    obtain ⟨nd, hnd, hhash⟩ := hih
    have hc : g.changes[i]? = some nd.change := by rw [changes_getElem?, hnd, Option.map_some]
    refine ⟨nd.change :: cs, ?_, by rw [List.map_cons, hmap, hhash],
      List.cons_subset.mpr ⟨List.mem_of_getElem? hc, hsub⟩⟩
    rw [List.filterMap_cons]
    simp only [hi, Option.bind_eq_bind, Option.bind_some, hc]
    rw [← hcs]
    rfl

end ChangeGraph

namespace Automerge

variable {doc other : Automerge M}

/-! ## `get_changes` -/

omit [LinearOrder H] [LinearOrder A] in
theorem known_eq (heads : List H) :
    doc.changeGraph.known heads = {x | x ∈ heads ∧ x ∈ doc.applied} := rfl

/-! ## `get_changes_by_hashes` -/

omit [LinearOrder A] in
theorem getChangesByHashes_spec (h : doc.WF) (hashes : List H) (hnd : hashes.Nodup)
    (hmem : ∀ x ∈ hashes, x ∈ doc.applied) :
    ∃ cs, doc.getChangesByHashes hashes = some (.ok cs) ∧ cs.map Change.hash = hashes ∧
      cs ⊆ doc.changeGraph.changes := by
  have hfind : hashes.find? (fun x => ¬ doc.hasChange x) = none := by
    rw [List.find?_eq_none]
    intro x hx
    simpa using hasChange_iff.mpr (hmem x hx)
  obtain ⟨cs, hcs, hmap, hsub⟩ := h.graph.lookup_hashes hashes hmem
  refine ⟨cs, ?_, hmap, hsub⟩
  have hbuild := fromBuildMeta_nodup M.vecEncoderMax cs [] (hmap ▸ hnd) (by simp)
  rw [getChangesByHashes, hfind]
  simp only [hcs, hbuild, Option.map_some]

omit [LinearOrder A] in
/-- An unknown hash among those asked for is an error. -/
theorem getChangesByHashes_missing {hashes : List H} {x : H} (hx : x ∈ hashes)
    (hxn : x ∉ doc.applied) : ∃ y, doc.getChangesByHashes hashes = some (.error y) := by
  rcases hf : hashes.find? (fun x => ¬ doc.hasChange x) with _ | y
  · rw [List.find?_eq_none] at hf
    exact absurd (hasChange_iff.mp (by simpa using hf x hx)) hxn
  · exact ⟨y, by rw [getChangesByHashes, hf]⟩

/-! ## `get_changes_added` -/

omit [LinearOrder A] in
theorem mem_depsForHash (h : doc.WF) {x d : H} : d ∈ doc.changeGraph.depsForHash x ↔
    x ∈ doc.applied ∧ Dep A P d x := by
  set g := doc.changeGraph with hgdef
  unfold ChangeGraph.depsForHash
  rcases hx : g.hashToIndex x with _ | i
  · have hxn : x ∉ g.hashes := fun hmem => by
      obtain ⟨j, hj⟩ := ChangeGraph.hashToIndex_isSome.mp hmem
      rw [hx] at hj
      cases hj
    simp only [List.not_mem_nil, false_iff, not_and]
    exact fun hmem => absurd hmem hxn
  · have hxi := (ChangeGraph.hashToIndex_eq_some h.graph.nodup).mp hx
    have hxi' := hxi
    rw [ChangeGraph.hashes_getElem?, Option.map_eq_some_iff] at hxi
    obtain ⟨nd, hnd, rfl⟩ := hxi
    rw [List.mem_filterMap]
    constructor
    · rintro ⟨j, hj, hjd⟩
      obtain ⟨nd', hnd', d', hd', hjd'⟩ := h.graph.parent_iff.mp hj
      rw [hnd, Option.some.injEq] at hnd'
      rw [hjd', Option.some.injEq] at hjd
      subst hnd' hjd
      exact ⟨List.mem_of_getElem? hxi', dep_hash.mpr hd'⟩
    · rintro ⟨_, hdep⟩
      have hd := dep_hash.mp hdep
      obtain ⟨j, _, hj⟩ := h.graph.deps_lt i nd hnd d hd
      exact ⟨j, h.graph.parent_iff.mpr ⟨nd, hnd, d, hd, hj⟩, hj⟩

omit [LinearOrder A] in
/-- The walk from the other document's heads finds its surplus: what this document
lacks lies above nothing this document has. -/
theorem mem_addedHashes (h : doc.WF) (ho : other.WF) {x : H} :
    x ∈ doc.addedHashes other ↔ x ∈ other.applied ∧ x ∉ doc.applied := by
  set next := other.changeGraph.depsForHash with hnext
  have hU : ∀ x ∉ other.changeGraph.hashes.toFinset, next x = [] := by
    intro x hx
    rw [List.eq_nil_iff_forall_not_mem]
    intro d hd
    exact hx (List.mem_toFinset.mpr ((mem_depsForHash ho).mp hd).1)
  rw [addedHashes, List.mem_reverse, Causal.mem_stackWalk_iff hU le_rfl]
  constructor
  · rintro ⟨s, hs, hstop, hwalk⟩
    have hsa : s ∈ other.applied ∧ s ∉ doc.applied := by
      refine ⟨((mem_getHeads ho).mp (List.mem_reverse.mp hs)).1, fun hmem => ?_⟩
      rw [hasChange_iff.mpr hmem] at hstop
      cases hstop
    clear hs hstop
    induction hwalk with
    | refl => exact hsa
    | tail _ hstep ih =>
      obtain ⟨hmem, hstop⟩ := hstep
      obtain ⟨hx, hdep⟩ := (mem_depsForHash ho).mp hmem
      refine ⟨ho.closed hdep hx, fun hmem => ?_⟩
      rw [hasChange_iff.mpr hmem] at hstop
      cases hstop
  · rintro ⟨hx, hxn⟩
    obtain ⟨s, hs, hanc⟩ := Causal.subset_past_heads (dep_wellFounded (A := A) (P := P))
      other.applied_finite hx
    have hsn : ∀ {y : H}, Causal.Anc (Dep A P) x y → doc.hasChange y = false := by
      intro y hxy
      rw [← Bool.not_eq_true, hasChange_iff]
      exact fun hy => hxn (h.closed.anc hxy hy)
    refine ⟨s, List.mem_reverse.mpr ((getHeads_eq_heads ho).ge hs), hsn hanc, ?_⟩
    have hsa : s ∈ other.applied := hs.1
    clear hs
    induction hanc with
    | refl => exact .refl
    | @tail b c hxb hdep ih =>
      have hb := ho.closed hdep hsa
      exact .head ⟨(mem_depsForHash ho).mpr ⟨hsa, hdep⟩, hsn hxb⟩ (ih hb)

omit [LinearOrder A] in
theorem addedHashes_nodup : (doc.addedHashes other).Nodup := by
  rw [addedHashes, List.nodup_reverse]
  exact Causal.stackWalk_nodup List.nodup_nil

omit [LinearOrder A] in
/-- **`get_changes_added`** never panics and returns each missing change once. -/
theorem getChangesAdded_spec (h : doc.WF) (ho : other.WF) :
    ∃ cs, doc.getChangesAdded other = some cs ∧ (cs.map Change.hash).Nodup ∧
      (∀ c, c ∈ cs ↔ c ∈ other.changeGraph.changes ∧ c.hash ∉ doc.applied) := by
  obtain ⟨cs, hcs, hmap, hsub⟩ := getChangesByHashes_spec ho (doc.addedHashes other)
    addedHashes_nodup fun x hx => ((mem_addedHashes h ho).mp hx).1
  refine ⟨cs, by simp [getChangesAdded, hcs], hmap ▸ addedHashes_nodup, fun c => ?_⟩
  constructor
  · intro hc
    refine ⟨hsub hc, ((mem_addedHashes h ho).mp (hmap ▸ List.mem_map_of_mem hc)).2⟩
  · rintro ⟨hc, hcn⟩
    have hmem := (mem_addedHashes h ho).mpr ⟨ChangeGraph.hash_mem_hashes.mpr hc, hcn⟩
    rw [← hmap] at hmem
    obtain ⟨d, hd, he⟩ := List.mem_map.mp hmem
    exact Change.hash_inj he ▸ hd

omit [LinearOrder H] [LinearOrder A] in
/-- The hashes of what is added. -/
theorem getChangesAdded_hashes {cs : List (Change H A P)}
    (hcs : ∀ c, c ∈ cs ↔ c ∈ other.changeGraph.changes ∧ c.hash ∉ doc.applied) :
    hashesOf cs = other.applied \ doc.applied := by
  ext x
  constructor
  · rintro ⟨c, hc, rfl⟩
    obtain ⟨hco, hcn⟩ := (hcs c).mp hc
    exact ⟨ChangeGraph.hash_mem_hashes.mpr hco, hcn⟩
  · rintro ⟨hx, hxn⟩
    obtain ⟨c, hc, rfl⟩ := ChangeGraph.mem_hashes.mp hx
    exact ⟨c, (hcs c).mpr ⟨hc, hxn⟩, rfl⟩

end Automerge

end AutomergeR
