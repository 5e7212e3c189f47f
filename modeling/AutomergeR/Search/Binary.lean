import Mathlib.Data.List.Basic

/-! # Binary search

The search of the standard library in a list that a comparison cuts in two: the elements for
which it says `lt` come first, those for which it says `gt` last, and between them there is
one at most. It finds this one (`binarySearchBy_eq_some_iff`).
-/

namespace Search

variable {α : Type*} {f : α → Ordering} {l : List α}

/-- The loop: `size` elements from `base` on are left. -/
def narrow (f : α → Ordering) (l : List α) : (fuel base size : ℕ) → ℕ
  | 0, base, _ => base
  | fuel + 1, base, size =>
    if 1 < size then
      let half := size / 2
      let mid := base + half
      narrow f l fuel (if l[mid]?.map f = some .gt then base else mid) (size - half)
    else base

/-- `binary_search_by`. -/
def binarySearchBy (f : α → Ordering) (l : List α) : Option ℕ :=
  let base := narrow f l l.length 0 l.length
  if l[base]?.map f = some .eq then some base else none

/-- What the comparison says, from left to right: `lt` first, `gt` last. -/
def Cut (f : α → Ordering) (l : List α) : Prop := l.Pairwise fun x y => f x = .lt ∨ f y = .gt

theorem Cut.getElem? (h : Cut f l) {i j : ℕ} {x y : α} (hx : l[i]? = some x) (hy : l[j]? = some y)
    (hlt : i < j) : f x = .lt ∨ f y = .gt := by
  obtain ⟨hi, rfl⟩ := List.getElem?_eq_some_iff.mp hx
  obtain ⟨hj, rfl⟩ := List.getElem?_eq_some_iff.mp hy
  exact List.pairwise_iff_getElem.mp h i j hi hj hlt

/-- What is looked for stays between `base` and `base + size`. -/
theorem narrow_eq (h : Cut f l) {i : ℕ} {x : α} (hx : l[i]? = some x) (heq : f x = .eq) :
    ∀ (fuel base size : ℕ), size ≤ fuel + 1 → base + size ≤ l.length → base ≤ i → i < base + size →
      narrow f l fuel base size = i
  | 0, base, size, hfuel, _, hle, hlt => by
    unfold narrow
    omega
  | fuel + 1, base, size, hfuel, hlen, hle, hlt => by
    unfold narrow
    split
    · rename_i hsize
      have hmid : base + size / 2 < l.length := by omega
      have hget := List.getElem?_eq_getElem hmid
      dsimp only
      split
      · rename_i hgt
        -- what is looked for is before `mid`
        have hbefore : i < base + size / 2 := by
          by_contra hnot
          rcases Nat.lt_or_eq_of_le (Nat.not_lt.mp hnot) with hlt' | heq'
          · rcases h.getElem? hget hx hlt' with hl | hg
            · rw [hget, Option.map_some, hl] at hgt
              cases hgt
            · rw [heq] at hg
              cases hg
          · rw [heq', hx, Option.map_some, heq] at hgt
            cases hgt
        exact narrow_eq h hx heq fuel base _ (by omega) (by omega) hle (by omega)
      · rename_i hgt
        have hbehind : base + size / 2 ≤ i := by
          by_contra hnot
          rcases h.getElem? hx hget (Nat.not_le.mp hnot) with hl | hg
          · rw [heq] at hl
            cases hl
          · exact hgt (by rw [hget, Option.map_some, hg])
        exact narrow_eq h hx heq fuel _ _ (by omega) (by omega) hbehind (by omega)
    · omega

/-- **What is found** is the one element for which the comparison says `eq`. -/
theorem binarySearchBy_eq_some_iff (h : Cut f l) {i : ℕ} :
    binarySearchBy f l = some i ↔ ∃ x, l[i]? = some x ∧ f x = .eq := by
  unfold binarySearchBy
  dsimp only
  constructor
  · intro hs
    split at hs
    · rename_i heq
      cases hs
      obtain ⟨x, hx, hfx⟩ := Option.map_eq_some_iff.mp heq
      exact ⟨x, hx, hfx⟩
    · cases hs
  · rintro ⟨x, hx, heq⟩
    have hlen := (List.getElem?_eq_some_iff.mp hx).1
    rw [narrow_eq h hx heq l.length 0 l.length (by omega) (by omega) (Nat.zero_le _) (by omega), hx,
      Option.map_some, heq, if_pos rfl]

end Search
