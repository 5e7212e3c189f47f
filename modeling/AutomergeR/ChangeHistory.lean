import AutomergeR.ChangeGraphClock

/-! # The graph as a causal history

`ChangeGraph.WF` is the invariant of every graph `add_change` builds: hashes are
unique, dependencies precede, the index structures agree with the nodes, the
heads are the changes nothing depends on and every cached clock is right
(`WF.addChange`). Under it the positions and hashes carry the same causal order
(`WF.anc_iff`), so `get_hashes` returns the complement of a past
(`WF.getHashes_eq_filter`).
-/

namespace AutomergeR

variable {H A P : Type} [ChangeHash H A P]

namespace ChangeGraph

variable {g : ChangeGraph H A P}

omit [ChangeHash H A P] in
theorem changes_getElem? {i : ℕ} : g.changes[i]? = g.nodes[i]?.map Node.change := by
  simp [changes]

section

variable [DecidableEq H]

omit [DecidableEq H] in
theorem hashes_getElem? {i : ℕ} : g.hashes[i]? = g.nodes[i]?.map (·.change.hash) := by
  simp [hashes, changes, Function.comp_def]

omit [DecidableEq H] in
theorem mem_hashes {h : H} : h ∈ g.hashes ↔ ∃ c ∈ g.changes, c.hash = h := by
  simp [hashes]

omit [DecidableEq H] in
theorem hash_mem_hashes {c : Change H A P} : c.hash ∈ g.hashes ↔ c ∈ g.changes := by
  rw [mem_hashes]
  constructor
  · rintro ⟨d, hd, h⟩
    exact Change.hash_inj h ▸ hd
  · exact fun h => ⟨c, h, rfl⟩

theorem hasChange_iff {h : H} : g.hasChange h = true ↔ h ∈ g.hashes := by
  simp [hasChange]

structure WF (g : ChangeGraph H A P) : Prop where
  nodup : g.hashes.Nodup
  deps_lt : ∀ (i : ℕ) (nd : Node H A P), g.nodes[i]? = some nd →
    ∀ d ∈ nd.change.deps, ∃ j < i, g.hashes[j]? = some d
  parents_eq : ∀ (i : ℕ) (nd : Node H A P), g.nodes[i]? = some nd →
    nd.parents = nd.change.deps.filterMap g.hashToIndex
  indexed : g.Indexed
  cache : g.CacheOk
  mem_heads : ∀ h, h ∈ g.heads ↔ h ∈ g.hashes ∧ ∀ c ∈ g.changes, h ∉ c.deps

theorem hashToIndex_eq_some (hnd : g.hashes.Nodup) {h : H} {i : ℕ} :
    g.hashToIndex h = some i ↔ g.hashes[i]? = some h := by
  rw [hashToIndex, List.idxOf?_eq_some_iff, List.getElem?_eq_some_iff]
  constructor
  · rintro ⟨hi, he, _⟩
    exact ⟨hi, he⟩
  · rintro ⟨hi, he⟩
    refine ⟨hi, he, fun j hj hje => ?_⟩
    have := (List.Nodup.getElem_inj_iff hnd).mp (hje.trans he.symm)
    omega

theorem hashToIndex_isSome {h : H} : h ∈ g.hashes ↔ ∃ i, g.hashToIndex h = some i := by
  rw [← Option.isSome_iff_exists, hashToIndex, List.isSome_idxOf?]

namespace WF

theorem parent_iff (hg : g.WF) {p i : ℕ} : g.Parent p i ↔
    ∃ nd, g.nodes[i]? = some nd ∧ ∃ d ∈ nd.change.deps, g.hashes[p]? = some d := by
  unfold Parent parents
  rcases hnd : g.nodes[i]? with _ | nd
  · simp
  · simp only [hg.parents_eq i nd hnd, List.mem_filterMap, hashToIndex_eq_some hg.nodup,
      Option.some.injEq, exists_eq_left']

theorem ordered (hg : g.WF) : g.Ordered := by
  intro i p hp
  obtain ⟨nd, hnd, d, hd, hpd⟩ := hg.parent_iff.mp hp
  obtain ⟨j, hj, hjd⟩ := hg.deps_lt i nd hnd d hd
  rw [← hashToIndex_eq_some hg.nodup] at hpd hjd
  rw [hpd, Option.some.injEq] at hjd
  omega

theorem deps_mem (hg : g.WF) {c : Change H A P} (hc : c ∈ g.changes) {d : H}
    (hd : d ∈ c.deps) : d ∈ g.hashes := by
  obtain ⟨i, hi⟩ := List.mem_iff_getElem?.mp hc
  rw [changes_getElem?, Option.map_eq_some_iff] at hi
  obtain ⟨nd, hnd, rfl⟩ := hi
  obtain ⟨j, _, hj⟩ := hg.deps_lt i nd hnd d hd
  exact List.mem_of_getElem? hj

/-- The applied hashes are a causally closed set. -/
theorem closed (hg : g.WF) : Causal.Closed (Dep A P) {h | h ∈ g.hashes} := by
  rintro a b ⟨c, rfl, ha⟩ hb
  exact hg.deps_mem (hash_mem_hashes.mp hb) ha

/-- Positions and hashes carry the same causal order. -/
theorem anc_iff (hg : g.WF) {i j : ℕ} {hi hj : H} (hhi : g.hashes[i]? = some hi)
    (hhj : g.hashes[j]? = some hj) :
    Causal.Anc g.Parent j i ↔ Causal.Anc (Dep A P) hj hi := by
  constructor
  · intro h
    induction h generalizing hi with
    | refl =>
      rw [hhi, Option.some.injEq] at hhj
      exact hhj ▸ .refl
    | tail _ hp ih =>
      obtain ⟨nd, hnd, d, hd, hpd⟩ := hg.parent_iff.mp hp
      rw [hashes_getElem?, hnd, Option.map_some, Option.some.injEq] at hhi
      exact (ih hpd).tail ⟨nd.change, hhi, hd⟩
  · intro h
    induction h generalizing i with
    | refl =>
      rw [← hashToIndex_eq_some hg.nodup] at hhi hhj
      rw [hhi, Option.some.injEq] at hhj
      exact hhj ▸ .refl
    | tail _ hp ih =>
      obtain ⟨c, hc, hd⟩ := hp
      have hci := hhi
      rw [hashes_getElem?, Option.map_eq_some_iff] at hci
      obtain ⟨nd, hnd, hnh⟩ := hci
      have hcn : c = nd.change := Change.hash_inj (hc.trans hnh.symm)
      subst hcn
      obtain ⟨p, _, hp⟩ := hg.deps_lt i nd hnd _ hd
      exact (ih hp).tail (hg.parent_iff.mpr ⟨nd, hnd, _, hd, hp⟩)

end WF

/-! ## What heads cover -/

theorem mem_headsToNodes {heads : List H} (hnd : g.hashes.Nodup) {i : ℕ} :
    i ∈ g.headsToNodes heads ↔ ∃ h ∈ heads, g.hashes[i]? = some h := by
  simp only [headsToNodes, List.mem_filterMap, hashToIndex_eq_some hnd]

theorem filterMap_getElem?_range {α : Type*} : ∀ l : List α,
    (List.range l.length).filterMap (l[·]?) = l
  | [] => rfl
  | x :: l => by
    have ih := filterMap_getElem?_range l
    simp [List.range_succ_eq_map, List.filterMap_map, ih]

/-- The given heads that the graph knows. -/
def known (g : ChangeGraph H A P) (heads : List H) : Set H := {x | x ∈ heads ∧ x ∈ g.hashes}

open Classical in
/-- **`get_hashes`.** The applied hashes outside the past of the given heads, in
insertion order; heads the graph does not know cover nothing. -/
theorem WF.getHashes_eq_filter [DecidableEq A] (hg : g.WF) (hchain : g.OwnChain)
    (heads : List H) :
    g.getHashes heads =
      g.hashes.filter fun h => h ∉ Causal.Past (Dep A P) (g.known heads) := by
  have hclock : g.IsClock (g.headsToNodes heads).toFinset (g.seqClockForHeads heads) := by
    refine calculateClock_isClock hg.ordered hg.cache fun i hi => ?_
    obtain ⟨h, _, hh⟩ := (mem_headsToNodes hg.nodup).mp hi
    rw [hashes_getElem?, Option.map_eq_some_iff] at hh
    obtain ⟨nd, hnd, _⟩ := hh
    exact (List.getElem?_eq_some_iff.mp hnd).1
  have hpast : ∀ i h, g.hashes[i]? = some h →
      ((∃ s ∈ (g.headsToNodes heads).toFinset, Causal.Anc g.Parent i s) ↔
        h ∈ Causal.Past (Dep A P) (g.known heads)) := by
    intro i h hih
    constructor
    · rintro ⟨s, hs, his⟩
      obtain ⟨x, hx, hsx⟩ := (mem_headsToNodes hg.nodup).mp (List.mem_toFinset.mp hs)
      exact ⟨x, ⟨hx, List.mem_of_getElem? hsx⟩, (hg.anc_iff hsx hih).mp his⟩
    · rintro ⟨x, ⟨hx, hxg⟩, hhx⟩
      obtain ⟨s, hs⟩ := List.mem_iff_getElem?.mp hxg
      exact ⟨s, List.mem_toFinset.mpr ((mem_headsToNodes hg.nodup).mpr ⟨x, hx, hs⟩),
        (hg.anc_iff hs hih).mpr hhx⟩
  have hlen : g.nodes.length = g.hashes.length := by simp [hashes, changes]
  rw [getHashes, getBuildIndexes_eq_filter hg.indexed hchain hclock, List.filterMap_filter, hlen]
  calc
    List.filterMap (fun i => if decide (¬ ∃ s ∈ (g.headsToNodes heads).toFinset,
          Causal.Anc g.Parent i s) then g.hashes[i]? else none) (List.range g.hashes.length)
      = List.filterMap (fun i => (g.hashes[i]?).filter fun h =>
          decide (h ∉ Causal.Past (Dep A P) (g.known heads))) (List.range g.hashes.length) := by
        refine List.filterMap_congr fun i hi => ?_
        rcases hih : g.hashes[i]? with _ | h
        · simp
        · simp only [hpast i h hih, Option.filter_some]
    _ = ((List.range g.hashes.length).filterMap (g.hashes[·]?)).filter fun h =>
          decide (h ∉ Causal.Past (Dep A P) (g.known heads)) := by
        rw [List.filter_filterMap]
    _ = g.hashes.filter fun h => decide (h ∉ Causal.Past (Dep A P) (g.known heads)) := by
        rw [filterMap_getElem?_range]

theorem WF.mem_getHashes [DecidableEq A] (hg : g.WF) (hchain : g.OwnChain) {heads : List H}
    {h : H} : h ∈ g.getHashes heads ↔
      h ∈ g.hashes ∧ h ∉ Causal.Past (Dep A P) (g.known heads) := by
  simp [hg.getHashes_eq_filter hchain]

theorem WF.getHashes_sublist [DecidableEq A] (hg : g.WF) (hchain : g.OwnChain)
    (heads : List H) : (g.getHashes heads).Sublist g.hashes := by
  rw [hg.getHashes_eq_filter hchain]
  exact List.filter_sublist

/-! ## Growing the graph -/

theorem wf_new : (new : ChangeGraph H A P).WF where
  nodup := List.nodup_nil
  deps_lt := by simp [new]
  parents_eq := by simp [new]
  indexed :=
    { get_iff := by simp [new]
      sorted := by simp [new]
      mem_actors := by simp [new]
      actors_nodup := List.nodup_nil
      seq_pos := by simp [new] }
  cache := by simp [CacheOk, new]
  mem_heads := by simp [new, hashes, changes]

section Push

variable [DecidableEq A] {c : Change H A P}

theorem pushNode_nodes : (g.pushNode c).nodes =
    g.nodes ++ [⟨c, c.deps.filterMap g.hashToIndex⟩] := rfl

theorem pushNode_changes : (g.pushNode c).changes = g.changes ++ [c] := by
  simp [changes, pushNode]

theorem pushNode_hashes : (g.pushNode c).hashes = g.hashes ++ [c.hash] := by
  simp [hashes, pushNode_changes]

theorem pushNode_getElem?_of_lt {i : ℕ} (hi : i < g.nodes.length) :
    (g.pushNode c).nodes[i]? = g.nodes[i]? := by
  rw [pushNode_nodes, List.getElem?_append_left hi]

theorem pushNode_getElem?_length : (g.pushNode c).nodes[g.nodes.length]? =
    some ⟨c, c.deps.filterMap g.hashToIndex⟩ := by
  simp [pushNode_nodes]

/-- A node of the grown graph is an old one or the new one. -/
theorem pushNode_getElem?_cases {i : ℕ} {nd : Node H A P}
    (h : (g.pushNode c).nodes[i]? = some nd) :
    (i < g.nodes.length ∧ g.nodes[i]? = some nd) ∨
      (i = g.nodes.length ∧ nd = ⟨c, c.deps.filterMap g.hashToIndex⟩) := by
  rcases Nat.lt_trichotomy i g.nodes.length with hi | rfl | hi
  · exact Or.inl ⟨hi, (pushNode_getElem?_of_lt hi) ▸ h⟩
  · rw [pushNode_getElem?_length, Option.some.injEq] at h
    exact Or.inr ⟨rfl, h.symm⟩
  · have := (List.getElem?_eq_some_iff.mp h).1
    simp [pushNode_nodes] at this
    omega

theorem pushNode_hashToIndex {d : H} (hd : d ∈ g.hashes) (hc : c.hash ∉ g.hashes)
    (hnd : g.hashes.Nodup) : (g.pushNode c).hashToIndex d = g.hashToIndex d := by
  obtain ⟨i, hi⟩ := hashToIndex_isSome.mp hd
  have hnd' : (g.pushNode c).hashes.Nodup := by
    rw [pushNode_hashes]
    exact hnd.append (List.nodup_singleton _) (by simpa using hc)
  rw [hi, hashToIndex_eq_some hnd', pushNode_hashes]
  have h := (hashToIndex_eq_some hnd).mp hi
  rw [List.getElem?_append_left (List.getElem?_eq_some_iff.mp h).1, h]

omit [DecidableEq A] [DecidableEq H] in
/-- Every dependency of a change whose dependencies are all known has an index. -/
theorem exists_index_of_deps (hdeps : ∀ d ∈ c.deps, d ∈ g.hashes) {d : H} (hd : d ∈ c.deps) :
    ∃ j < g.nodes.length, g.hashes[j]? = some d := by
  obtain ⟨j, hj⟩ := List.mem_iff_getElem?.mp (hdeps d hd)
  have := (List.getElem?_eq_some_iff.mp hj).1
  exact ⟨j, by simpa [hashes, changes] using this, hj⟩

theorem Indexed.pushNode (hidx : g.Indexed) (hseq : g.seqForActor c.actor + 1 = c.seq) :
    (g.pushNode c).Indexed where
  get_iff := by
    intro a k i
    by_cases ha : a = c.actor
    · subst ha
      have hlist : (g.pushNode c).seqIndex c.actor = g.seqIndex c.actor ++ [g.nodes.length] := by
        simp [ChangeGraph.pushNode]
      rw [hlist]
      constructor
      · intro h
        rcases Nat.lt_trichotomy k (g.seqIndex c.actor).length with hk | rfl | hk
        · rw [List.getElem?_append_left hk] at h
          obtain ⟨nd, hnd, hrest⟩ := (hidx.get_iff _ _ _).mp h
          exact ⟨nd, by rw [pushNode_getElem?_of_lt (List.getElem?_eq_some_iff.mp hnd).1, hnd],
            hrest⟩
        · simp only [List.getElem?_concat_length, Option.some.injEq] at h
          subst h
          exact ⟨_, pushNode_getElem?_length, rfl, hseq.symm⟩
        · have := (List.getElem?_eq_some_iff.mp h).1
          simp at this
          omega
      · rintro ⟨nd, hnd, hact, hs⟩
        rcases pushNode_getElem?_cases hnd with ⟨_, hold⟩ | ⟨rfl, rfl⟩
        · have h := (hidx.get_iff _ _ _).mpr ⟨nd, hold, hact, hs⟩
          rw [List.getElem?_append_left (List.getElem?_eq_some_iff.mp h).1, h]
        · have hk : k = (g.seqIndex c.actor).length := by
            simp only [seqForActor] at hseq
            simp only at hs
            omega
          simp [hk]
    · have hlist : (g.pushNode c).seqIndex a = g.seqIndex a := by
        simp [ChangeGraph.pushNode, Function.update_of_ne ha]
      rw [hlist, hidx.get_iff]
      constructor
      · rintro ⟨nd, hnd, hrest⟩
        exact ⟨nd, by rw [pushNode_getElem?_of_lt (List.getElem?_eq_some_iff.mp hnd).1, hnd],
          hrest⟩
      · rintro ⟨nd, hnd, hact, hs⟩
        rcases pushNode_getElem?_cases hnd with ⟨_, hold⟩ | ⟨rfl, rfl⟩
        · exact ⟨nd, hold, hact, hs⟩
        · exact absurd hact.symm ha
  sorted := by
    intro a
    by_cases ha : a = c.actor
    · subst ha
      simp only [ChangeGraph.pushNode, Function.update_self, List.pairwise_append, hidx.sorted,
        List.pairwise_singleton, List.mem_singleton, true_and, forall_eq]
      intro i hi
      obtain ⟨k, hk⟩ := List.mem_iff_getElem?.mp hi
      obtain ⟨nd, hnd, _⟩ := (hidx.get_iff _ _ _).mp hk
      exact (List.getElem?_eq_some_iff.mp hnd).1
    · simpa [ChangeGraph.pushNode, Function.update_of_ne ha] using hidx.sorted a
  mem_actors := by
    intro a
    by_cases ha : a = c.actor
    · subst ha
      by_cases hmem : c.actor ∈ g.actors <;> simp [ChangeGraph.pushNode, hmem]
    · by_cases hmem : c.actor ∈ g.actors <;>
        simp [ChangeGraph.pushNode, hmem, ha, hidx.mem_actors]
  actors_nodup := by
    by_cases hmem : c.actor ∈ g.actors
    · simpa [ChangeGraph.pushNode, hmem] using hidx.actors_nodup
    · simp only [ChangeGraph.pushNode, if_neg hmem]
      exact hidx.actors_nodup.append (List.nodup_singleton _) (by simpa using hmem)
  seq_pos := by
    intro i nd hnd
    rcases pushNode_getElem?_cases hnd with ⟨_, hold⟩ | ⟨rfl, rfl⟩
    · exact hidx.seq_pos i nd hold
    · simp only
      omega

/-- Coverage of old positions does not see the new node. -/
theorem covers_pushNode (hord : g.Ordered) {i : ℕ} (hi : i < g.nodes.length) {a : A} {n : ℕ} :
    (g.pushNode c).Covers {i} a n ↔ g.Covers {i} a n := by
  have hpar : ∀ {k p : ℕ}, k < g.nodes.length → ((g.pushNode c).Parent p k ↔ g.Parent p k) := by
    intro k p hk
    simp only [Parent, parents, pushNode_getElem?_of_lt hk]
  have hanc : ∀ {j : ℕ}, Causal.Anc (g.pushNode c).Parent j i →
      j < g.nodes.length ∧ Causal.Anc g.Parent j i := by
    intro j h
    induction h using Relation.ReflTransGen.head_induction_on with
    | refl => exact ⟨hi, .refl⟩
    | head hp _ ih =>
      have hp' := (hpar ih.1).mp hp
      exact ⟨(hord _ _ hp').trans ih.1, ih.2.head hp'⟩
  have hanc' : ∀ {j : ℕ}, Causal.Anc g.Parent j i →
      j < g.nodes.length ∧ Causal.Anc (g.pushNode c).Parent j i := by
    intro j h
    induction h using Relation.ReflTransGen.head_induction_on with
    | refl => exact ⟨hi, .refl⟩
    | head hp _ ih => exact ⟨(hord _ _ hp).trans ih.1, ih.2.head ((hpar ih.1).mpr hp)⟩
  constructor
  · rintro ⟨k, hk, j, hjk, nd, hnd, hrest⟩
    rw [Finset.mem_singleton] at hk
    subst hk
    obtain ⟨hj, hjk'⟩ := hanc hjk
    exact ⟨k, by simp, j, hjk', nd, pushNode_getElem?_of_lt hj ▸ hnd, hrest⟩
  · rintro ⟨k, hk, j, hjk, nd, hnd, hrest⟩
    rw [Finset.mem_singleton] at hk
    subst hk
    obtain ⟨hj, hjk'⟩ := hanc' hjk
    exact ⟨k, by simp, j, hjk', nd, (pushNode_getElem?_of_lt hj).trans hnd, hrest⟩

theorem WF.pushNode (hg : g.WF) (hnew : c.hash ∉ g.hashes)
    (hdeps : ∀ d ∈ c.deps, d ∈ g.hashes) (hseq : g.seqForActor c.actor + 1 = c.seq) :
    (g.pushNode c).WF where
  nodup := by
    rw [pushNode_hashes]
    exact hg.nodup.append (List.nodup_singleton _) (by simpa using hnew)
  deps_lt := by
    intro i nd hnd d hd
    have hlift : ∀ {j : ℕ}, g.hashes[j]? = some d → (g.pushNode c).hashes[j]? = some d := by
      intro j hj
      rw [pushNode_hashes, List.getElem?_append_left (List.getElem?_eq_some_iff.mp hj).1, hj]
    rcases pushNode_getElem?_cases hnd with ⟨_, hold⟩ | ⟨rfl, rfl⟩
    · obtain ⟨j, hj, hjd⟩ := hg.deps_lt i nd hold d hd
      exact ⟨j, hj, hlift hjd⟩
    · obtain ⟨j, hj, hjd⟩ := exists_index_of_deps hdeps hd
      exact ⟨j, hj, hlift hjd⟩
  parents_eq := by
    intro i nd hnd
    rcases pushNode_getElem?_cases hnd with ⟨_, hold⟩ | ⟨rfl, rfl⟩
    · rw [hg.parents_eq i nd hold]
      refine List.filterMap_congr fun d hd => ?_
      obtain ⟨j, _, hj⟩ := hg.deps_lt i nd hold d hd
      exact (pushNode_hashToIndex (List.mem_of_getElem? hj) hnew hg.nodup).symm
    · exact List.filterMap_congr fun d hd =>
        (pushNode_hashToIndex (hdeps d hd) hnew hg.nodup).symm
  indexed := hg.indexed.pushNode hseq
  cache := by
    intro i clock hi
    obtain ⟨hlt, hclock⟩ := hg.cache i clock hi
    refine ⟨by simp [pushNode_nodes]; omega, fun a n hn => ?_⟩
    rw [covers_pushNode hg.ordered hlt]
    exact hclock a n hn
  mem_heads := by
    intro h
    have hheads : (g.pushNode c).heads = updateHeads g.heads c := rfl
    simp only [hheads, updateHeads, Finset.mem_insert, Finset.mem_sdiff, List.mem_toFinset,
      hg.mem_heads, pushNode_hashes, pushNode_changes, List.mem_append, List.mem_singleton]
    constructor
    · rintro (rfl | ⟨⟨hmem, hold⟩, hdep⟩)
      · refine ⟨Or.inr rfl, fun d hd hcd => ?_⟩
        rcases hd with hd | rfl
        · exact hnew (hg.deps_mem hd hcd)
        · exact hnew (hdeps _ hcd)
      · refine ⟨Or.inl hmem, fun d hd => ?_⟩
        rcases hd with hd | rfl
        · exact hold d hd
        · exact hdep
    · rintro ⟨hmem | rfl, hall⟩
      · exact Or.inr ⟨⟨hmem, fun d hd => hall d (Or.inl hd)⟩, hall c (Or.inr rfl)⟩
      · exact Or.inl rfl

omit [DecidableEq A] in
theorem WF.withCache (hg : g.WF) {cache : ℕ → Option (SeqClock A)}
    (hok : (g.withCache cache).CacheOk) : (g.withCache cache).WF :=
  { hg with cache := hok, indexed := { hg.indexed with } }

/-- What `add_change` can do: nothing for a known change, append a node (and
cache a clock) for one that is ready and next in line, panic otherwise. -/
theorem WF.addChange_cases (hg : g.WF) {g' : ChangeGraph H A P}
    (h : g.addChange c = some g') :
    (c.hash ∈ g.hashes ∧ g' = g) ∨
    (c.hash ∉ g.hashes ∧ (∀ d ∈ c.deps, d ∈ g.hashes) ∧ g.seqForActor c.actor + 1 = c.seq ∧
      ∃ cache, g' = (g.pushNode c).withCache cache ∧ g'.WF) := by
  unfold addChange at h
  by_cases hknown : g.hasChange c.hash = true
  · rw [if_pos hknown, Option.some.injEq] at h
    exact Or.inl ⟨hasChange_iff.mp hknown, h.symm⟩
  · rw [if_neg hknown] at h
    have hnew : c.hash ∉ g.hashes := fun hm => hknown (hasChange_iff.mpr hm)
    by_cases hready : c.deps.all g.hasChange ∧ g.seqForActor c.actor + 1 = c.seq
    · rw [if_pos hready] at h
      have hdeps : ∀ d ∈ c.deps, d ∈ g.hashes := fun d hd =>
        hasChange_iff.mp (List.all_eq_true.mp hready.1 d hd)
      have hwf := hg.pushNode hnew hdeps hready.2
      refine Or.inr ⟨hnew, hdeps, hready.2, ?_⟩
      by_cases hstep : (g.nodes.length + 1) % CACHE_STEP = 0
      · rw [if_pos hstep, Option.some.injEq] at h
        obtain ⟨cache, hcache, hok, _⟩ := cacheClock_spec (g.pushNode c).nodes.length
          (g.pushNode c) g.nodes.length hwf.ordered hwf.cache (by simp [pushNode_nodes])
          (by simp [pushNode_nodes])
        exact ⟨cache, h.symm.trans hcache, (h.symm.trans hcache) ▸ hwf.withCache hok⟩
      · rw [if_neg hstep, Option.some.injEq] at h
        exact ⟨g.clockCache, h.symm, h ▸ hwf⟩
    · rw [if_neg hready] at h
      cases h

theorem WF.addChange (hg : g.WF) {g' : ChangeGraph H A P} (h : g.addChange c = some g') :
    g'.WF := by
  rcases hg.addChange_cases h with ⟨_, rfl⟩ | ⟨_, _, _, _, _, hwf⟩
  · exact hg
  · exact hwf

end Push

end

end ChangeGraph

end AutomergeR
