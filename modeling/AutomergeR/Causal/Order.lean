import Mathlib.Logic.Relation
import Mathlib.Data.Set.Finite.Lemmas
import Mathlib.Order.WellFoundedSet

/-! # Causal order: pasts, closed sets, heads and cores

The order theory every replicated history rests on, over an arbitrary type of
events and an arbitrary direct-dependency relation: `dep a b` reads "`b` names
`a` as a dependency". Nothing here knows what an event is.

- `Anc`/`Past`: ancestors (reflexive) and downward closure.
- `Heads`: the members nothing else in the set depends on. On a finite set over
  a well-founded relation the heads generate the set (`closed_eq_past_heads`).
- `Core K`: the largest closed part of a set of received events, which is what
  a causal delivery buffer has delivered (`delivered_eq_core`).
-/

namespace Causal

variable {α : Type*} {dep : α → α → Prop}

/-- `a` is `b` itself or one of its ancestors. -/
abbrev Anc (dep : α → α → Prop) (a b : α) : Prop := Relation.ReflTransGen dep a b

/-- Everything the members of `T` (transitively) depend on, `T` included. -/
def Past (dep : α → α → Prop) (T : Set α) : Set α := {a | ∃ b ∈ T, Anc dep a b}

/-- A set that contains the dependencies of its members. -/
def Closed (dep : α → α → Prop) (S : Set α) : Prop := ∀ ⦃a b⦄, dep a b → b ∈ S → a ∈ S

/-- The members of `S` that no member of `S` depends on. -/
def Heads (dep : α → α → Prop) (S : Set α) : Set α := {a | a ∈ S ∧ ∀ b ∈ S, ¬ dep a b}

/-- The events whose whole past lies in `K`. -/
def Core (dep : α → α → Prop) (K : Set α) : Set α := {a | Past dep {a} ⊆ K}

/-! ## Pasts and closed sets -/

theorem Closed.anc {S : Set α} (hS : Closed dep S) {a b : α} (h : Anc dep a b)
    (hb : b ∈ S) : a ∈ S := by
  induction h using Relation.ReflTransGen.head_induction_on with
  | refl => exact hb
  | head hab _ ih => exact hS hab ih

theorem closed_past (T : Set α) : Closed dep (Past dep T) := by
  rintro _ b hab ⟨t, ht, hbt⟩
  exact ⟨t, ht, hbt.head hab⟩

theorem subset_past (T : Set α) : T ⊆ Past dep T :=
  fun a ha => ⟨a, ha, .refl⟩

theorem Closed.past_subset {S T : Set α} (hS : Closed dep S) (h : T ⊆ S) :
    Past dep T ⊆ S := by
  rintro a ⟨b, hb, hab⟩
  exact hS.anc hab (h hb)

theorem past_mono {S T : Set α} (h : S ⊆ T) : Past dep S ⊆ Past dep T := by
  rintro a ⟨b, hb, hab⟩
  exact ⟨b, h hb, hab⟩

theorem mem_past_singleton {a b : α} : a ∈ Past dep {b} ↔ Anc dep a b := by
  simp [Past]

theorem Closed.union {S T : Set α} (hS : Closed dep S) (hT : Closed dep T) :
    Closed dep (S ∪ T) := by
  rintro a b hab (hb | hb)
  · exact Or.inl (hS hab hb)
  · exact Or.inr (hT hab hb)

/-! ## Heads -/

theorem heads_subset (S : Set α) : Heads dep S ⊆ S := fun _ ha => ha.1

/-- On a finite set over a well-founded relation every member lies under a head:
climbing the dependents of `a` inside `S` has to stop. -/
theorem subset_past_heads (wf : WellFounded dep) {S : Set α} (hfin : S.Finite) :
    S ⊆ Past dep (Heads dep S) := by
  have htrans : IsStrictOrder α (flip (Relation.TransGen dep)) :=
    { irrefl := fun a h => wf.transGen.irrefl.irrefl a h
      trans := fun a b c hab hbc => hbc.trans hab }
  have hwf : S.WellFoundedOn (flip (Relation.TransGen dep)) := hfin.wellFoundedOn
  intro a ha
  refine hwf.induction ha fun x hx ih => ?_
  by_cases hhead : ∀ b ∈ S, ¬ dep x b
  · exact subset_past _ ⟨hx, hhead⟩
  · push Not at hhead
    obtain ⟨b, hb, hxb⟩ := hhead
    exact closed_past _ hxb (ih b hb (.single hxb))

theorem closed_eq_past_heads (wf : WellFounded dep) {S : Set α} (hfin : S.Finite)
    (hS : Closed dep S) : S = Past dep (Heads dep S) :=
  (subset_past_heads wf hfin).antisymm (hS.past_subset (heads_subset S))

/-- A finite set is contained in every closed set that has its heads. -/
theorem subset_of_heads_subset (wf : WellFounded dep) {S T : Set α} (hfin : S.Finite)
    (hT : Closed dep T) (h : Heads dep S ⊆ T) : S ⊆ T :=
  (subset_past_heads wf hfin).trans (hT.past_subset h)

/-- Equal heads mean equal closed sets. -/
theorem eq_of_heads_eq (wf : WellFounded dep) {S T : Set α} (hSf : S.Finite)
    (hTf : T.Finite) (hS : Closed dep S) (hT : Closed dep T)
    (h : Heads dep S = Heads dep T) : S = T := by
  rw [closed_eq_past_heads wf hSf hS, closed_eq_past_heads wf hTf hT, h]

/-! ## Cores: what causal delivery delivers -/

theorem core_subset (K : Set α) : Core dep K ⊆ K :=
  fun _ ha => ha (subset_past _ rfl)

theorem closed_core (K : Set α) : Closed dep (Core dep K) := by
  intro _ b hab hb x hx
  rw [mem_past_singleton] at hx
  exact hb (mem_past_singleton.mpr (hx.tail hab))

theorem Closed.subset_core {S K : Set α} (hS : Closed dep S) (h : S ⊆ K) :
    S ⊆ Core dep K :=
  fun _ ha => (hS.past_subset (Set.singleton_subset_iff.mpr ha)).trans h

/-- A buffer that holds back only events with an undelivered dependency has
delivered exactly the core of what it received. -/
theorem delivered_eq_core (wf : WellFounded dep) {A K : Set α} (hA : Closed dep A)
    (hAK : A ⊆ K) (hheld : ∀ a ∈ K, a ∉ A → ∃ d, dep d a ∧ d ∉ A) :
    A = Core dep K := by
  refine (hA.subset_core hAK).antisymm fun a => ?_
  induction a using wf.induction with
  | _ a ih =>
    intro ha
    by_contra hna
    obtain ⟨d, hda, hdA⟩ := hheld a (core_subset K ha) hna
    exact hdA (ih d hda (closed_core K hda ha))

end Causal
