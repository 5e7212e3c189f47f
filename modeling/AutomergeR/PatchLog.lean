import Mathlib.Data.Finset.Sort

/-! # The patch log

`patches/patch_log.rs`. The package never asks a document for patches, so its log is
inactive and records no event. What is left of it is the table of actors by which an
event would name them: `migrate_actors` brings it up to the table of the op set, and
fails where the log has an actor that the op set has dropped in between.
-/

namespace AutomergeR

/-- `PatchLog`, inactive. The sorted `Vec` of actors is a set. -/
structure PatchLog (A : Type*) where
  actors : Finset A
  deriving DecidableEq

namespace PatchLog

variable {A : Type*}

def inactive : PatchLog A := ⟨∅⟩

variable [LinearOrder A]

/-- The loop of `migrate_actors`, from an index on: what the two tables have there. -/
def migrateFrom : List A → List A → Option (List A)
  | own, [] => some own
  | [], b :: others => (migrateFrom [] others).map (b :: ·)
  | a :: own, b :: others =>
    if a = b then (migrateFrom own others).map (a :: ·)
    else if b < a then (migrateFrom (a :: own) others).map (b :: ·)
    else none

/-- `migrate_actors`; `none` is the error `PatchLogMismatch`. -/
def migrateActors (log : PatchLog A) (others : Finset A) : Option (PatchLog A) :=
  if log.actors = others then some log
  else if log.actors = ∅ then some ⟨others⟩
  else
    (migrateFrom (log.actors.sort (· ≤ ·)) (others.sort (· ≤ ·))).map fun actors =>
      ⟨actors.toFinset⟩

/-- Actors that only the log has come behind all others. -/
def Fits (log : PatchLog A) (others : Finset A) : Prop :=
  ∀ a ∈ log.actors, a ∉ others → ∀ b ∈ others, b < a

theorem mem_migrateFrom {own others l : List A} (h : migrateFrom own others = some l) :
    ∀ x, x ∈ l ↔ x ∈ own ∨ x ∈ others := by
  induction own, others using migrateFrom.induct generalizing l with
  | case1 own =>
    cases h
    simp
  | case2 b others ih =>
    rw [migrateFrom, Option.map_eq_some_iff] at h
    obtain ⟨l', hl', rfl⟩ := h
    simp [ih hl']
  | case3 own a others ih =>
    rw [migrateFrom, if_pos rfl, Option.map_eq_some_iff] at h
    obtain ⟨l', hl', rfl⟩ := h
    intro x
    rw [List.mem_cons, List.mem_cons, List.mem_cons, ih hl']
    tauto
  | case4 a own b others hne hlt ih =>
    rw [migrateFrom, if_neg hne, if_pos hlt, Option.map_eq_some_iff] at h
    obtain ⟨l', hl', rfl⟩ := h
    intro x
    rw [List.mem_cons, List.mem_cons (b := b), ih hl']
    tauto
  | case5 a own b others hne hlt =>
    rw [migrateFrom, if_neg hne, if_neg hlt] at h
    cases h

/-- The loop gets to its end unless an actor of the own table is passed over. -/
theorem migrateFrom_isSome {own others : List A} (hs : own.Pairwise (· < ·))
    (ho : others.Pairwise (· < ·)) : (migrateFrom own others).isSome ↔
      ∀ a ∈ own, a ∉ others → ∀ b ∈ others, b < a := by
  induction own, others using migrateFrom.induct with
  | case1 own => simp [migrateFrom]
  | case2 b others ih =>
    rw [migrateFrom, Option.isSome_map, ih hs ho.of_cons]
    simp
  | case3 own a others ih =>
    rw [List.pairwise_cons] at hs ho
    rw [migrateFrom, if_pos rfl, Option.isSome_map, ih hs.2 ho.2]
    constructor
    · intro hfit x hx hnx y hy
      have hxown : x ∈ own := (List.mem_cons.mp hx).resolve_left fun h => hnx (h ▸ List.mem_cons_self)
      rcases List.mem_cons.mp hy with rfl | hy
      · exact hs.1 x hxown
      · exact hfit x hxown (fun h => hnx (List.mem_cons_of_mem _ h)) y hy
    · intro hfit x hx hnx y hy
      refine hfit x (List.mem_cons_of_mem _ hx) (fun h => ?_) y (List.mem_cons_of_mem _ hy)
      rcases List.mem_cons.mp h with rfl | h
      · exact lt_irrefl x (hs.1 x hx)
      · exact hnx h
  | case4 a own b others hne hlt ih =>
    rw [migrateFrom, if_neg hne, if_pos hlt, Option.isSome_map, ih hs ho.of_cons]
    -- `b` comes before the whole of the own table
    have hb : ∀ x ∈ a :: own, b < x := by
      intro x hx
      rcases List.mem_cons.mp hx with rfl | hx
      · exact hlt
      · exact hlt.trans ((List.pairwise_cons.mp hs).1 x hx)
    constructor
    · intro hfit x hx hnx y hy
      rcases List.mem_cons.mp hy with rfl | hy
      · exact hb x hx
      · exact hfit x hx (fun h => hnx (List.mem_cons_of_mem _ h)) y hy
    · intro hfit x hx hnx y hy
      refine hfit x hx (fun h => ?_) y (List.mem_cons_of_mem _ hy)
      rcases List.mem_cons.mp h with rfl | h
      · exact lt_irrefl x (hb x hx)
      · exact hnx h
  | case5 a own b others hne hlt =>
    rw [migrateFrom, if_neg hne, if_neg hlt]
    refine ⟨fun h => by simp at h, fun hfit => absurd (hfit a List.mem_cons_self ?_ b
      List.mem_cons_self) hlt⟩
    intro ha
    rcases List.mem_cons.mp ha with rfl | ha
    · exact hne rfl
    · exact hlt ((List.pairwise_cons.mp ho).1 a ha)

/-- **A migration** brings the tables together, and fails where they do not fit. -/
theorem migrateActors_eq_some {log log' : PatchLog A} {others : Finset A} :
    log.migrateActors others = some log' ↔ log.Fits others ∧ log' = ⟨log.actors ∪ others⟩ := by
  unfold migrateActors
  split_ifs with heq hempty
  · have hfit : log.Fits others := fun a ha hna => absurd (heq ▸ ha) hna
    rw [Option.some.injEq, and_iff_right hfit, ← heq, Finset.union_self]
    exact eq_comm
  · have hfit : log.Fits others := fun a ha => absurd (hempty ▸ ha) (Finset.notMem_empty a)
    rw [Option.some.injEq, and_iff_right hfit, hempty, Finset.empty_union]
    exact eq_comm
  · have hsome : (migrateFrom (log.actors.sort (· ≤ ·)) (others.sort (· ≤ ·))).isSome ↔
        log.Fits others := by
      rw [migrateFrom_isSome (Finset.sortedLT_sort _).pairwise (Finset.sortedLT_sort _).pairwise]
      simp only [Finset.mem_sort]
      rfl
    rw [Option.map_eq_some_iff, ← hsome, Option.isSome_iff_exists]
    constructor
    · rintro ⟨l, hl, rfl⟩
      refine ⟨⟨l, hl⟩, congrArg PatchLog.mk (Finset.ext fun x => ?_)⟩
      rw [List.mem_toFinset, mem_migrateFrom hl, Finset.mem_sort, Finset.mem_sort, Finset.mem_union]
    · rintro ⟨⟨l, hl⟩, rfl⟩
      refine ⟨l, hl, congrArg PatchLog.mk (Finset.ext fun x => ?_)⟩
      rw [List.mem_toFinset, mem_migrateFrom hl, Finset.mem_sort, Finset.mem_sort, Finset.mem_union]

/-- A log that knows no other actors takes over the table. -/
theorem migrateActors_of_subset {log : PatchLog A} {others : Finset A}
    (h : log.actors ⊆ others) : log.migrateActors others = some ⟨others⟩ :=
  migrateActors_eq_some.mpr ⟨fun _ ha hna => absurd (h ha) hna,
    congrArg PatchLog.mk (Finset.union_eq_right.mpr h).symm⟩

@[simp] theorem migrateActors_inactive (others : Finset A) :
    inactive.migrateActors others = some ⟨others⟩ :=
  migrateActors_of_subset (Finset.empty_subset _)

/-- Actor 2 has no change any more: actors 1 and 3 cannot both be logged beside it. -/
example : (⟨{2}⟩ : PatchLog ℕ).migrateActors {1, 3} = none := by
  refine Option.eq_none_iff_forall_not_mem.mpr fun log' h => ?_
  exact absurd ((migrateActors_eq_some.mp h).1 2 (by decide) (by decide) 3 (by decide)) (by decide)

variable {log log' : PatchLog A} {known others : Finset A} {all : Set A}

/-- Actors that the log has beside the known ones come behind all there will be. -/
def Follows (log : PatchLog A) (known : Finset A) (all : Set A) : Prop :=
  ∀ a ∈ log.actors, a ∉ known → ∀ b ∈ all, b ≤ a

theorem follows_of_subset (h : log.actors ⊆ known) : log.Follows known all :=
  fun _ ha hna => absurd (h ha) hna

theorem Follows.fits (h : log.Follows known all) (hsub : known ⊆ others)
    (hall : ∀ a ∈ others, a ∈ all) : log.Fits others := fun a ha hna b hb =>
  lt_of_le_of_ne (h a ha (fun hk => hna (hsub hk)) b (hall b hb)) fun heq => hna (heq ▸ hb)

theorem Follows.mono (h : log.Follows known all) (hlog : log'.actors ⊆ log.actors ∪ others)
    (hsub : known ⊆ others) : log'.Follows others all := fun a ha hna =>
  h a ((Finset.mem_union.mp (hlog ha)).resolve_right hna) fun hk => hna (hsub hk)

/-- Actors that the op set has are of no account in the log. -/
theorem fits_congr (h : log.actors ∪ known = log'.actors ∪ known) (hsub : known ⊆ others) :
    log.Fits others ↔ log'.Fits others := by
  have hmem : ∀ a ∉ others, (a ∈ log.actors ↔ a ∈ log'.actors) := by
    intro a ha
    have hnot : a ∉ known := fun hk => ha (hsub hk)
    have hunion := Finset.ext_iff.mp h a
    simpa [hnot] using hunion
  exact ⟨fun hfit a ha hna => hfit a ((hmem a hna).mpr ha) hna,
    fun hfit a ha hna => hfit a ((hmem a hna).mp ha) hna⟩

theorem migrateActors_congr (h : log.actors ∪ known = log'.actors ∪ known) (hsub : known ⊆ others) :
    log.migrateActors others = log'.migrateActors others := by
  have hunion : log.actors ∪ others = log'.actors ∪ others := by
    rw [← Finset.union_eq_right.mpr hsub, ← Finset.union_assoc, h, Finset.union_assoc]
  refine Option.ext fun l => ?_
  rw [migrateActors_eq_some, migrateActors_eq_some, fits_congr h hsub, hunion]

end PatchLog

end AutomergeR
