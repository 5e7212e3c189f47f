import AutomergeR.ChangeGraph

/-! # Sequence clocks summarise ancestors

The graph never walks ancestors when it answers `get_changes`; it computes one
sequence number per actor, through clocks cached every `CACHE_STEP` nodes. This
file says what such a clock is (`IsClock`), that the cut-off and the cached walk
both compute it, and that cutting every actor's changes at its entry leaves
exactly the nodes outside the past of the heads.
-/

namespace AutomergeR

variable {H A P : Type}

namespace ChangeGraph

variable {g : ChangeGraph H A P}

/-- Node `p` is a direct dependency of node `i`. -/
def Parent (g : ChangeGraph H A P) (p i : ℕ) : Prop := p ∈ g.parents i

/-- Some node in the past of `S` is a change of `a` with sequence number at
least `n`. -/
def Covers (g : ChangeGraph H A P) (S : Finset ℕ) (a : A) (n : ℕ) : Prop :=
  ∃ i ∈ S, ∃ j, Causal.Anc g.Parent j i ∧
    ∃ nd, g.nodes[j]? = some nd ∧ nd.change.actor = a ∧ n ≤ nd.change.seq

def IsClock (g : ChangeGraph H A P) (S : Finset ℕ) (clock : SeqClock A) : Prop :=
  ∀ a n, 0 < n → (n ≤ clock a ↔ g.Covers S a n)

/-- Dependencies were inserted before the node that names them. -/
def Ordered (g : ChangeGraph H A P) : Prop :=
  ∀ i, ∀ p ∈ g.parents i, p < i

def CacheOk (g : ChangeGraph H A P) : Prop :=
  ∀ i clock, g.clockCache i = some clock → i < g.nodes.length ∧ g.IsClock {i} clock

/-! ## Coverage -/

theorem not_covers_empty {a : A} {n : ℕ} : ¬ g.Covers ∅ a n := by
  rintro ⟨i, hi, _⟩
  simp at hi

theorem covers_union {S T : Finset ℕ} {a : A} {n : ℕ} :
    g.Covers (S ∪ T) a n ↔ g.Covers S a n ∨ g.Covers T a n := by
  constructor
  · rintro ⟨i, hi, h⟩
    rcases Finset.mem_union.mp hi with hi | hi
    · exact Or.inl ⟨i, hi, h⟩
    · exact Or.inr ⟨i, hi, h⟩
  · rintro (⟨i, hi, h⟩ | ⟨i, hi, h⟩)
    · exact ⟨i, Finset.mem_union_left _ hi, h⟩
    · exact ⟨i, Finset.mem_union_right _ hi, h⟩

theorem covers_erase {S : Finset ℕ} {i : ℕ} (hi : i ∈ S) {a : A} {n : ℕ} :
    g.Covers S a n ↔ g.Covers {i} a n ∨ g.Covers (S.erase i) a n := by
  rw [← covers_union, Finset.singleton_union, Finset.insert_erase hi]

/-- A node covers its own sequence number and what its parents cover. -/
theorem covers_singleton {i : ℕ} {nd : Node H A P} (hnd : g.nodes[i]? = some nd) {a : A}
    {n : ℕ} : g.Covers {i} a n ↔
      (nd.change.actor = a ∧ n ≤ nd.change.seq) ∨ g.Covers nd.parents.toFinset a n := by
  have hpar : g.parents i = nd.parents := by simp [parents, hnd]
  constructor
  · rintro ⟨k, hk, j, hanc, hj⟩
    rw [Finset.mem_singleton] at hk
    subst hk
    rcases hanc.cases_tail with rfl | ⟨p, hjp, hp⟩
    · obtain ⟨nd', hnd', ha, hn⟩ := hj
      rw [hnd, Option.some.injEq] at hnd'
      exact Or.inl (hnd' ▸ ⟨ha, hn⟩)
    · exact Or.inr ⟨p, by simpa [Parent, hpar] using hp, j, hjp, hj⟩
  · rintro (⟨ha, hn⟩ | ⟨p, hp, j, hjp, hj⟩)
    · exact ⟨i, by simp, i, .refl, nd, hnd, ha, hn⟩
    · exact ⟨i, by simp, j, hjp.tail (by simpa [Parent, hpar] using hp), hj⟩

section Walk

variable [DecidableEq A]

theorem le_includeData {clock : SeqClock A} {actor a : A} {data n : ℕ} :
    n ≤ SeqClock.includeData clock actor data a ↔
      n ≤ clock a ∨ (actor = a ∧ n ≤ data) := by
  unfold SeqClock.includeData
  by_cases h : a = actor
  · subst h
    simp
  · simp [Function.update_of_ne h, Ne.symm h]

omit [DecidableEq A] in
theorem le_merge {c d : SeqClock A} {a : A} {n : ℕ} :
    n ≤ SeqClock.merge c d a ↔ n ≤ c a ∨ n ≤ d a := by
  simp [SeqClock.merge]

/-- **The clock walk.** Clock and work list together always cover the same
sequence numbers; the work list descends, and without a limit it is used up. The
induction is on the fuel; `b` bounds the work list from above and the visited
nodes from below, so that no parent is ever dropped as already visited. -/
theorem calculateClockInner_spec (hord : g.Ordered) (hcache : g.CacheOk) (limit : Option ℕ) :
    ∀ (fuel : ℕ) (clock : SeqClock A) (toVisit visited : Finset ℕ) (b : ℕ),
      (∀ i ∈ toVisit, i < b) → (∀ i ∈ visited, b ≤ i) → b ≤ g.nodes.length →
      (∀ a n, 0 < n →
        ((n ≤ (g.calculateClockInner limit fuel clock toVisit visited).1 a ∨
          g.Covers (g.calculateClockInner limit fuel clock toVisit visited).2 a n) ↔
        (n ≤ clock a ∨ g.Covers toVisit a n))) ∧
      (∀ i ∈ (g.calculateClockInner limit fuel clock toVisit visited).2, i < b) ∧
      (0 < fuel → ∀ m, (∀ i ∈ toVisit, i ≤ m) →
        ∀ i ∈ (g.calculateClockInner limit fuel clock toVisit visited).2, i < m) ∧
      (limit = none → b ≤ fuel →
        (g.calculateClockInner limit fuel clock toVisit visited).2 = ∅)
  | 0, clock, toVisit, visited, b, hb, _, _ => by
    refine ⟨fun _ _ _ => Iff.rfl, hb, fun h => absurd h (lt_irrefl 0), fun _ hf => ?_⟩
    exact Finset.eq_empty_of_forall_notMem fun i hi => absurd (hb i hi) (by omega)
  | fuel + 1, clock, toVisit, visited, b, hb, hv, hlen => by
    rw [calculateClockInner]
    rcases hmax : toVisit.max with _ | idx
    · have hempty : toVisit = ∅ := Finset.max_eq_bot.mp hmax
      subst hempty
      simp
    · have hidx : idx ∈ toVisit := Finset.mem_of_max hmax
      have hle : ∀ i ∈ toVisit, i ≤ idx := fun i hi => Finset.le_max_of_eq hi hmax
      have hidxb : idx < b := hb idx hidx
      have hv' : ∀ i ∈ insert idx visited, idx ≤ i := by
        intro i hi
        rcases Finset.mem_insert.mp hi with rfl | hi
        · exact le_rfl
        · exact hidxb.le.trans (hv i hi)
      have herase : ∀ i ∈ toVisit.erase idx, i < idx := fun i hi =>
        lt_of_le_of_ne (hle i (Finset.mem_of_mem_erase hi)) (Finset.ne_of_mem_erase hi)
      obtain ⟨nd, hnd⟩ : ∃ nd, g.nodes[idx]? = some nd :=
        ⟨_, List.getElem?_eq_getElem (hidxb.trans_le hlen)⟩
      have hpar : g.parents idx = nd.parents := by simp [parents, hnd]
      simp only [hnd]
      rcases hcc : g.clockCache idx with _ | cached
      · -- no cached clock: visit the parents, none of which is visited already
        have hfilter : (nd.parents.filter (· ∉ insert idx visited)).toFinset
            = nd.parents.toFinset := by
          ext p
          simp only [List.mem_toFinset, List.mem_filter, decide_eq_true_eq, and_iff_left_iff_imp]
          intro hp hmem
          exact absurd (hv' p hmem) (by have := hord idx p (hpar ▸ hp); omega)
        have hnext : ∀ i ∈ toVisit.erase idx ∪ nd.parents.toFinset, i < idx := by
          intro i hi
          rcases Finset.mem_union.mp hi with hi | hi
          · exact herase i hi
          · exact hord idx i (hpar ▸ List.mem_toFinset.mp hi)
        have hcov : ∀ a n, (n ≤ SeqClock.includeData clock nd.change.actor nd.change.seq a ∨
            g.Covers (toVisit.erase idx ∪ nd.parents.toFinset) a n) ↔
            (n ≤ clock a ∨ g.Covers toVisit a n) := by
          intro a n
          rw [le_includeData, covers_union, covers_erase hidx, covers_singleton hnd]
          tauto
        simp only [hfilter]
        by_cases hlim : (limit.any (· < (insert idx visited).card)) = true
        · simp only [if_pos hlim]
          refine ⟨fun a n _ => hcov a n, fun i hi => (hnext i hi).trans hidxb,
            fun _ m hm i hi => (hnext i hi).trans_le (hm idx hidx), fun hnone _ => ?_⟩
          rw [hnone] at hlim
          simp at hlim
        · simp only [if_neg hlim]
          obtain ⟨h1, h2, _, h4⟩ := calculateClockInner_spec hord hcache limit fuel
            (SeqClock.includeData clock nd.change.actor nd.change.seq) _ _ _
            hnext hv' (hidxb.le.trans hlen)
          refine ⟨fun a n hn => (h1 a n hn).trans (hcov a n),
            fun i hi => (h2 i hi).trans hidxb, fun _ m hm i hi => (h2 i hi).trans_le (hm idx hidx),
            fun hnone hf => h4 hnone (by omega)⟩
      · -- a cached clock already covers the whole past of `idx`
        have hclock := (hcache idx cached hcc).2
        have hcov : ∀ a n, 0 < n →
            ((n ≤ SeqClock.merge (SeqClock.includeData clock nd.change.actor nd.change.seq) cached a ∨
              g.Covers (toVisit.erase idx) a n) ↔ (n ≤ clock a ∨ g.Covers toVisit a n)) := by
          intro a n hn
          rw [le_merge, le_includeData, hclock a n hn, covers_erase hidx, covers_singleton hnd]
          tauto
        simp only
        obtain ⟨h1, h2, _, h4⟩ := calculateClockInner_spec hord hcache limit fuel
          (SeqClock.merge (SeqClock.includeData clock nd.change.actor nd.change.seq) cached) _ _ _
          herase hv' (hidxb.le.trans hlen)
        refine ⟨fun a n hn => (h1 a n hn).trans (hcov a n hn),
          fun i hi => (h2 i hi).trans hidxb, fun _ m hm i hi => (h2 i hi).trans_le (hm idx hidx),
          fun hnone hf => h4 hnone (by omega)⟩

theorem calculateClock_isClock (hord : g.Ordered) (hcache : g.CacheOk) {nodes : List ℕ}
    (hnodes : ∀ i ∈ nodes, i < g.nodes.length) :
    g.IsClock nodes.toFinset (g.calculateClock nodes) := by
  intro a n hn
  obtain ⟨h1, _, _, h4⟩ := calculateClockInner_spec hord hcache none (g.nodes.length + 1)
    SeqClock.new nodes.toFinset ∅ g.nodes.length (by simpa using hnodes) (by simp) le_rfl
  have h := h1 a n hn
  rw [h4 rfl (Nat.le_succ _)] at h
  simpa [calculateClock, not_covers_empty, SeqClock.new, Nat.ne_of_gt hn] using h

/-! ## The cached clocks -/

/-- The same graph under another clock cache. -/
def withCache (g : ChangeGraph H A P) (cache : ℕ → Option (SeqClock A)) : ChangeGraph H A P :=
  { g with clockCache := cache }

omit [DecidableEq A] in
theorem cacheOk_update (hcache : g.CacheOk) {i : ℕ} (hi : i < g.nodes.length)
    {clock : SeqClock A} (hclock : g.IsClock {i} clock) :
    (g.withCache (Function.update g.clockCache i (some clock))).CacheOk := by
  intro k clk hk
  by_cases hki : k = i
  · subst hki
    simp only [withCache, Function.update_self, Option.some.injEq] at hk
    exact hk ▸ ⟨hi, hclock⟩
  · simp only [withCache, Function.update_of_ne hki] at hk
    exact hcache k clk hk

/-- **Caching a clock.** `cache_clock` changes nothing but the cache, leaves every
cached clock right and returns the right clock; the recursion goes down the
indexes, so fuel above the index suffices. -/
theorem cacheClock_spec : ∀ (fuel : ℕ) (g : ChangeGraph H A P) (i : ℕ),
    g.Ordered → g.CacheOk → i < g.nodes.length → i < fuel →
      ∃ cache, (cacheClock fuel g i).2 = g.withCache cache ∧
        (g.withCache cache).CacheOk ∧ g.IsClock {i} (cacheClock fuel g i).1
  | fuel + 1, g, i, hord, hcache, hi, hfuel => by
    obtain ⟨h1, _, h3, _⟩ := calculateClockInner_spec hord hcache (some (CACHE_STEP * 2))
      (g.nodes.length + 1) SeqClock.new {i} ∅ g.nodes.length (by simpa using hi) (by simp) le_rfl
    have hbelow := h3 (Nat.succ_pos _) i (by simp)
    rw [cacheClock]
    generalize g.calculateClockInner (some (CACHE_STEP * 2)) (g.nodes.length + 1) SeqClock.new
      {i} ∅ = r at h1 hbelow
    obtain ⟨clock, toVisit⟩ := r
    simp only at h1 hbelow ⊢
    -- the loop over what is left: cache stays right, the clock gains what is left
    have hloop : ∀ (ns : List ℕ) (c : SeqClock A) (cache : ℕ → Option (SeqClock A)),
        (∀ k ∈ ns, k < i) → (g.withCache cache).CacheOk →
        ∃ cache', (ns.foldl (fun (acc : SeqClock A × ChangeGraph H A P) n =>
            (SeqClock.merge acc.1 (cacheClock fuel acc.2 n).1, (cacheClock fuel acc.2 n).2))
            (c, g.withCache cache)).2 = g.withCache cache' ∧ (g.withCache cache').CacheOk ∧
          ∀ a n, 0 < n → (n ≤ (ns.foldl (fun (acc : SeqClock A × ChangeGraph H A P) n =>
            (SeqClock.merge acc.1 (cacheClock fuel acc.2 n).1, (cacheClock fuel acc.2 n).2))
            (c, g.withCache cache)).1 a ↔ n ≤ c a ∨ g.Covers ns.toFinset a n) := by
      intro ns
      induction ns with
      | nil => exact fun c cache _ hok => ⟨cache, rfl, hok, by simp [not_covers_empty]⟩
      | cons k ns ih =>
        intro c cache hns hok
        have hk : k < i := hns k List.mem_cons_self
        obtain ⟨cache₁, hg₁, hok₁, hclk₁⟩ := cacheClock_spec fuel (g.withCache cache) k
          hord hok (hk.trans hi) (by omega)
        obtain ⟨cache₂, hg₂, hok₂, hclk₂⟩ := ih
          (SeqClock.merge c (cacheClock fuel (g.withCache cache) k).1) cache₁
          (fun x hx => hns x (List.mem_cons_of_mem _ hx)) hok₁
        have hg₁' : (cacheClock fuel (g.withCache cache) k).2 = g.withCache cache₁ := hg₁
        refine ⟨cache₂, by simpa only [List.foldl_cons, hg₁'] using hg₂, hok₂, ?_⟩
        intro a n hn
        have hk' : n ≤ (cacheClock fuel (g.withCache cache) k).1 a ↔ g.Covers {k} a n :=
          hclk₁ a n hn
        rw [List.foldl_cons, hg₁', hclk₂ a n hn, le_merge, hk', List.toFinset_cons,
          ← Finset.singleton_union, covers_union]
        tauto
    obtain ⟨cache, hg, hok, hclk⟩ := hloop (toVisit.sort (· ≤ ·)) clock g.clockCache
      (fun k hk => hbelow k ((Finset.mem_sort _).mp hk)) hcache
    have hg0 : g.withCache g.clockCache = g := rfl
    rw [hg0] at hg hclk
    have hisClock : g.IsClock {i} (List.foldl (fun (acc : SeqClock A × ChangeGraph H A P) n =>
        (SeqClock.merge acc.1 (cacheClock fuel acc.2 n).1, (cacheClock fuel acc.2 n).2))
        (clock, g) (toVisit.sort (· ≤ ·))).1 := by
      intro a n hn
      rw [hclk a n hn, Finset.sort_toFinset, h1 a n hn]
      simp [SeqClock.new, Nat.ne_of_gt hn]
    exact ⟨_, by rw [hg]; rfl, cacheOk_update hok hi hisClock, hisClock⟩

end Walk

/-! ## Cutting the history at a clock -/

/-- Every change was made after its actor's previous change: that change is one
of its ancestors. -/
def OwnChain (g : ChangeGraph H A P) : Prop :=
  ∀ (i j : ℕ) (nd ne : Node H A P), g.nodes[i]? = some nd → g.nodes[j]? = some ne →
    ne.change.actor = nd.change.actor → ne.change.seq + 1 = nd.change.seq →
    Causal.Anc g.Parent j i

/-- `seq_index` lists each actor's nodes by sequence number, in insertion order. -/
structure Indexed (g : ChangeGraph H A P) : Prop where
  get_iff : ∀ a k i, (g.seqIndex a)[k]? = some i ↔
    ∃ nd : Node H A P, g.nodes[i]? = some nd ∧ nd.change.actor = a ∧ nd.change.seq = k + 1
  sorted : ∀ a, (g.seqIndex a).Pairwise (· < ·)
  mem_actors : ∀ a, a ∈ g.actors ↔ g.seqIndex a ≠ []
  actors_nodup : g.actors.Nodup
  seq_pos : ∀ (i : ℕ) (nd : Node H A P), g.nodes[i]? = some nd → 0 < nd.change.seq

/-- An actor's later change has each of its earlier ones as an ancestor. -/
theorem OwnChain.anc (hidx : g.Indexed) (hchain : g.OwnChain) {i j : ℕ}
    {nd ne : Node H A P} (hi : g.nodes[i]? = some nd) (hj : g.nodes[j]? = some ne)
    (ha : ne.change.actor = nd.change.actor) (hle : ne.change.seq ≤ nd.change.seq) :
    Causal.Anc g.Parent j i := by
  induction hk : nd.change.seq - ne.change.seq generalizing i nd with
  | zero =>
    have hseq : ne.change.seq = nd.change.seq := by omega
    have hpos := hidx.seq_pos i nd hi
    have h1 := (hidx.get_iff nd.change.actor (nd.change.seq - 1) i).mpr ⟨nd, hi, rfl, by omega⟩
    have h2 := (hidx.get_iff nd.change.actor (nd.change.seq - 1) j).mpr ⟨ne, hj, ha, by omega⟩
    rw [h1, Option.some.injEq] at h2
    exact h2 ▸ .refl
  | succ k ih =>
    -- the previous change of the same actor is in the graph and is an ancestor
    have hpos := hidx.seq_pos j ne hj
    have hlen : nd.change.seq - 2 < (g.seqIndex nd.change.actor).length := by
      have h := (hidx.get_iff nd.change.actor (nd.change.seq - 1) i).mpr ⟨nd, hi, rfl, by omega⟩
      have := (List.getElem?_eq_some_iff.mp h).1
      omega
    obtain ⟨np, hp, hpa, hps⟩ := (hidx.get_iff nd.change.actor (nd.change.seq - 2) _).mp
      (List.getElem?_eq_getElem hlen)
    have hprev := hchain i _ nd np hi hp hpa (by omega)
    exact (ih hp (ha.trans hpa.symm) (by omega) (by omega)).trans hprev

theorem mem_getBuildIndexes (hidx : g.Indexed) (hchain : g.OwnChain) {S : Finset ℕ}
    {clock : SeqClock A} (hclock : g.IsClock S clock) {i : ℕ} :
    i ∈ g.getBuildIndexes clock ↔
      i < g.nodes.length ∧ ¬ ∃ s ∈ S, Causal.Anc g.Parent i s := by
  rw [getBuildIndexes, List.mem_mergeSort, List.mem_flatMap]
  constructor
  · rintro ⟨a, _, hi⟩
    obtain ⟨k, hk⟩ := List.mem_iff_getElem?.mp hi
    rw [List.getElem?_drop] at hk
    obtain ⟨nd, hnd, ha, hseq⟩ := (hidx.get_iff a _ i).mp hk
    refine ⟨(List.getElem?_eq_some_iff.mp hnd).1, fun ⟨s, hs, his⟩ => ?_⟩
    have hcov : g.Covers S a (clock a + k + 1) := ⟨s, hs, i, his, nd, hnd, ha, hseq.ge⟩
    have := (hclock a _ (Nat.succ_pos _)).mpr hcov
    omega
  · rintro ⟨hi, hnot⟩
    set nd := g.nodes[i] with hnd
    have hget : g.nodes[i]? = some nd := List.getElem?_eq_getElem hi
    have hpos := hidx.seq_pos i nd hget
    have hk := (hidx.get_iff nd.change.actor (nd.change.seq - 1) i).mpr ⟨nd, hget, rfl, by omega⟩
    have hlt : clock nd.change.actor < nd.change.seq := by
      by_contra hge
      obtain ⟨s, hs, j, hjs, ne, hne, hae, hle⟩ :=
        (hclock nd.change.actor nd.change.seq hpos).mp (by omega)
      exact hnot ⟨s, hs, (hchain.anc hidx hne hget hae.symm hle).trans hjs⟩
    refine ⟨nd.change.actor, (hidx.mem_actors _).mpr ?_, ?_⟩
    · exact List.ne_nil_of_mem (List.mem_of_getElem? hk)
    · refine List.mem_iff_getElem?.mpr ⟨nd.change.seq - 1 - clock nd.change.actor, ?_⟩
      rw [List.getElem?_drop, show clock nd.change.actor +
        (nd.change.seq - 1 - clock nd.change.actor) = nd.change.seq - 1 from by omega, hk]

theorem getBuildIndexes_sorted (hidx : g.Indexed) (clock : SeqClock A) :
    (g.getBuildIndexes clock).Pairwise (· < ·) := by
  have hnodup : (g.actors.flatMap fun a => (g.seqIndex a).drop (clock a)).Nodup := by
    rw [List.nodup_flatMap]
    refine ⟨fun a _ => ((hidx.sorted a).imp (fun h => h.ne)).sublist (List.drop_sublist _ _), ?_⟩
    refine hidx.actors_nodup.imp fun {a b} hab => ?_
    rw [Function.onFun, List.disjoint_left]
    intro i hia hib
    obtain ⟨k, hk⟩ := List.mem_iff_getElem?.mp (List.mem_of_mem_drop hia)
    obtain ⟨l, hl⟩ := List.mem_iff_getElem?.mp (List.mem_of_mem_drop hib)
    obtain ⟨nd, hnd, ha, _⟩ := (hidx.get_iff a k i).mp hk
    obtain ⟨ne, hne, hb, _⟩ := (hidx.get_iff b l i).mp hl
    rw [hnd, Option.some.injEq] at hne
    exact hab (ha.symm.trans (hne ▸ hb))
  have hle : (g.getBuildIndexes clock).Pairwise (· ≤ ·) := by
    simpa [getBuildIndexes] using @List.pairwise_mergeSort ℕ (fun a b => decide (a ≤ b))
      (by simpa using fun a b c => Nat.le_trans) (by simpa using Nat.le_total)
      (g.actors.flatMap fun a => (g.seqIndex a).drop (clock a))
  have hnd : (g.getBuildIndexes clock).Nodup :=
    (List.mergeSort_perm _ _).nodup_iff.mpr hnodup
  exact hle.imp₂ (fun _ _ h hne => lt_of_le_of_ne h hne) hnd

open Classical in
/-- **The cut.** Cutting every actor at its clock entry leaves the indexes outside
the past of the heads, in insertion order. -/
theorem getBuildIndexes_eq_filter (hidx : g.Indexed) (hchain : g.OwnChain) {S : Finset ℕ}
    {clock : SeqClock A} (hclock : g.IsClock S clock) :
    g.getBuildIndexes clock =
      (List.range g.nodes.length).filter fun i => ¬ ∃ s ∈ S, Causal.Anc g.Parent i s := by
  refine List.Perm.eq_of_pairwise (fun a b _ _ hab hba => absurd hab (Nat.lt_asymm hba))
    (getBuildIndexes_sorted hidx clock) (List.pairwise_lt_range.filter _) ?_
  refine (List.perm_ext_iff_of_nodup ?_ ?_).mpr fun i => ?_
  · exact (getBuildIndexes_sorted hidx clock).imp (fun h => h.ne)
  · exact List.nodup_range.filter _
  · rw [mem_getBuildIndexes hidx hchain hclock]
    simp

end ChangeGraph

end AutomergeR
