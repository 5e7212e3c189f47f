import Mathlib.Algebra.BigOperators.Group.Finset.Basic
import Mathlib.Algebra.Order.BigOperators.Group.Finset
import Mathlib.Data.List.Nodup
import AutomergeR.Causal.Order

/-! # Stack walks

The depth-first traversal that marks a node when it is popped: nodes already
seen, and nodes at which the walk stops, are skipped; every other popped node is
recorded and its successors are pushed. `next` may name nodes more than once and
in any order, so the recorded list is in general no topological order; what it is
for certain is duplicate-free (`stackWalk_nodup`) and exactly the set reachable
around the stops (`mem_stackWalk_iff`).
-/

namespace Causal

variable {α : Type*} [DecidableEq α]

/-- The walk: a stack (top first) and the nodes seen so far, in order. Pushing
the successors in order leaves the last one on top. -/
def stackWalk (next : α → List α) (stop : α → Bool) : ℕ → List α → List α → List α
  | 0, _, seen => seen
  | _ + 1, [], seen => seen
  | fuel + 1, x :: stack, seen =>
    if x ∈ seen ∨ stop x = true then stackWalk next stop fuel stack seen
    else stackWalk next stop fuel ((next x).reverse ++ stack) (seen ++ [x])

variable {next : α → List α} {stop : α → Bool}

/-- One step from a node to a successor at which the walk does not stop. -/
def WalkStep (next : α → List α) (stop : α → Bool) (a b : α) : Prop :=
  b ∈ next a ∧ stop b = false

theorem stackWalk_nodup : ∀ {fuel : ℕ} {stack seen : List α}, seen.Nodup →
    (stackWalk next stop fuel stack seen).Nodup
  | 0, _, _, h => h
  | _ + 1, [], _, h => h
  | fuel + 1, x :: stack, seen, h => by
    rw [stackWalk]
    by_cases hx : x ∈ seen ∨ stop x = true
    · rw [if_pos hx]
      exact stackWalk_nodup h
    · rw [if_neg hx]
      push Not at hx
      exact stackWalk_nodup (by simpa [List.nodup_append] using ⟨h, fun a ha e => hx.1 (e ▸ ha)⟩)

theorem subset_stackWalk : ∀ {fuel : ℕ} {stack seen : List α},
    seen ⊆ stackWalk next stop fuel stack seen
  | 0, _, _ => fun _ h => h
  | _ + 1, [], _ => fun _ h => h
  | fuel + 1, x :: stack, seen => by
    rw [stackWalk]
    by_cases hx : x ∈ seen ∨ stop x = true
    · rw [if_pos hx]
      exact subset_stackWalk
    · rw [if_neg hx]
      exact fun a ha => subset_stackWalk (List.mem_append_left _ ha)

/-- Whatever is recorded was reached from the stack around the stops. -/
theorem stackWalk_sound : ∀ {fuel : ℕ} {stack seen : List α} {a : α},
    a ∈ stackWalk next stop fuel stack seen →
      a ∈ seen ∨ ∃ s ∈ stack, stop s = false ∧ Relation.ReflTransGen (WalkStep next stop) s a
  | 0, _, _, _, h => Or.inl h
  | _ + 1, [], _, _, h => Or.inl h
  | fuel + 1, x :: stack, seen, a, h => by
    rw [stackWalk] at h
    by_cases hx : x ∈ seen ∨ stop x = true
    · rw [if_pos hx] at h
      rcases stackWalk_sound h with h | ⟨s, hs, hstop, hsa⟩
      · exact Or.inl h
      · exact Or.inr ⟨s, List.mem_cons_of_mem _ hs, hstop, hsa⟩
    · rw [if_neg hx] at h
      push Not at hx
      have hxstop : stop x = false := by simpa using hx.2
      rcases stackWalk_sound h with h | ⟨s, hs, hstop, hsa⟩
      · rcases List.mem_append.mp h with h | h
        · exact Or.inl h
        · rw [List.mem_singleton] at h
          exact Or.inr ⟨x, List.mem_cons_self, hxstop, h ▸ .refl⟩
      · rcases List.mem_append.mp hs with hs | hs
        · exact Or.inr ⟨x, List.mem_cons_self, hxstop,
            hsa.head ⟨List.mem_reverse.mp hs, hstop⟩⟩
        · exact Or.inr ⟨s, List.mem_cons_of_mem _ hs, hstop, hsa⟩

/-- The pushes still to come are bounded by the out-degrees of the unseen part of
a finite universe outside of which nothing has successors. -/
def walkCost (next : α → List α) (U : Finset α) (stack seen : List α) : ℕ :=
  stack.length + ∑ x ∈ U \ seen.toFinset, (next x).length

theorem walkCost_visit {U : Finset α} (hU : ∀ x ∉ U, next x = []) {x : α}
    (stack : List α) {seen : List α} (hx : x ∉ seen) :
    walkCost next U ((next x).reverse ++ stack) (seen ++ [x]) + 1 =
      walkCost next U (x :: stack) seen := by
  have hset : U \ (seen ++ [x]).toFinset = (U \ seen.toFinset).erase x := by
    ext y
    simp only [List.toFinset_append, List.toFinset_cons, List.toFinset_nil, Finset.mem_sdiff,
      Finset.mem_union, List.mem_toFinset, Finset.mem_insert, Finset.notMem_empty, or_false,
      Finset.mem_erase]
    tauto
  rw [walkCost, walkCost, hset]
  by_cases hxU : x ∈ U
  · have hmem : x ∈ U \ seen.toFinset := by simp [hxU, hx]
    rw [← Finset.add_sum_erase _ (fun y => (next y).length) hmem]
    simp
    omega
  · rw [Finset.erase_eq_of_notMem (by simp [hxU]), hU x hxU]
    simp
    omega

/-- With enough fuel nothing stays on the stack, so the record is closed under
the successors at which the walk does not stop. -/
theorem stackWalk_closed {U : Finset α} (hU : ∀ x ∉ U, next x = []) :
    ∀ {fuel : ℕ} {stack seen : List α}, walkCost next U stack seen ≤ fuel →
      (∀ a ∈ seen, ∀ b ∈ next a, stop b = false → b ∈ seen ∨ b ∈ stack) →
      (∀ s ∈ stack, stop s = false → s ∈ stackWalk next stop fuel stack seen) ∧
      ∀ a ∈ stackWalk next stop fuel stack seen, ∀ b ∈ next a, stop b = false →
        b ∈ stackWalk next stop fuel stack seen
  | 0, stack, seen, hcost, hinv => by
    have hnil : stack = [] := by
      unfold walkCost at hcost
      exact List.eq_nil_of_length_eq_zero (by omega)
    subst hnil
    exact ⟨by simp, fun a ha b hb hstop => (hinv a ha b hb hstop).resolve_right (by simp)⟩
  | fuel + 1, [], seen, _, hinv =>
    ⟨by simp, fun a ha b hb hstop => (hinv a ha b hb hstop).resolve_right (by simp)⟩
  | fuel + 1, x :: stack, seen, hcost, hinv => by
    rw [stackWalk]
    by_cases hx : x ∈ seen ∨ stop x = true
    · rw [if_pos hx]
      have hcost' : walkCost next U stack seen ≤ fuel := by
        simp only [walkCost, List.length_cons] at hcost ⊢
        omega
      have hinv' : ∀ a ∈ seen, ∀ b ∈ next a, stop b = false → b ∈ seen ∨ b ∈ stack := by
        intro a ha b hb hstop
        rcases hinv a ha b hb hstop with h | h
        · exact Or.inl h
        · rcases List.mem_cons.mp h with rfl | h
          · exact Or.inl (hx.resolve_right (by simp [hstop]))
          · exact Or.inr h
      obtain ⟨hstack, hclosed⟩ := stackWalk_closed hU hcost' hinv'
      refine ⟨fun s hs hstop => ?_, hclosed⟩
      rcases List.mem_cons.mp hs with rfl | hs
      · exact subset_stackWalk (hx.resolve_right (by simp [hstop]))
      · exact hstack s hs hstop
    · rw [if_neg hx]
      push Not at hx
      have hcost' : walkCost next U ((next x).reverse ++ stack) (seen ++ [x]) ≤ fuel := by
        have := walkCost_visit hU stack hx.1
        omega
      have hinv' : ∀ a ∈ seen ++ [x], ∀ b ∈ next a, stop b = false →
          b ∈ seen ++ [x] ∨ b ∈ (next x).reverse ++ stack := by
        intro a ha b hb hstop
        rcases List.mem_append.mp ha with ha | ha
        · rcases hinv a ha b hb hstop with h | h
          · exact Or.inl (List.mem_append_left _ h)
          · rcases List.mem_cons.mp h with rfl | h
            · exact Or.inl (by simp)
            · exact Or.inr (List.mem_append_right _ h)
        · rw [List.mem_singleton] at ha
          subst ha
          exact Or.inr (List.mem_append_left _ (List.mem_reverse.mpr hb))
      obtain ⟨hstack, hclosed⟩ := stackWalk_closed hU hcost' hinv'
      refine ⟨fun s hs hstop => ?_, hclosed⟩
      rcases List.mem_cons.mp hs with rfl | hs
      · exact subset_stackWalk (by simp)
      · exact hstack s (List.mem_append_right _ hs) hstop

/-- **What a walk from a fresh start records.** Given enough fuel, exactly the
nodes reachable from the stack without entering a stop. -/
theorem mem_stackWalk_iff {U : Finset α} (hU : ∀ x ∉ U, next x = []) {fuel : ℕ}
    {stack : List α} (hcost : walkCost next U stack [] ≤ fuel) {a : α} :
    a ∈ stackWalk next stop fuel stack [] ↔
      ∃ s ∈ stack, stop s = false ∧ Relation.ReflTransGen (WalkStep next stop) s a := by
  constructor
  · intro h
    simpa using stackWalk_sound h
  · rintro ⟨s, hs, hstop, hsa⟩
    obtain ⟨hstack, hclosed⟩ := @stackWalk_closed _ _ _ stop _ hU _ _ _ hcost (by simp)
    induction hsa with
    | refl => exact hstack s hs hstop
    | tail _ hbc ih => exact hclosed _ ih _ hbc.1 hbc.2

end Causal
