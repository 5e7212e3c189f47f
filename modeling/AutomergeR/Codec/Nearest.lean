import AutomergeR.Codec.Binary64

/-! # The nearest double

Rounding takes a number to a double than which none is nearer, and an integer of at most
53 significant bits to itself.
-/

namespace Codec.Binary64

/-- A finite double in units of `2 ^ (-1074)`. -/
def signedUnits (bits : UInt64) : ℤ := if negative bits then -(units bits : ℤ) else units bits

/-- How far a finite double is from `num / den` units, in fractions `1 / den` of a unit. -/
def distance (bits : UInt64) (num : ℤ) (den : ℕ) : ℕ := (signedUnits bits * den - num).natAbs

/-- No double is nearer to `num / den` units. -/
def IsNearest (bits : UInt64) (num : ℤ) (den : ℕ) : Prop :=
  isFinite bits = true ∧ ∀ other, isFinite other = true → distance bits num den ≤ distance other num den

/-- The double is this integer. -/
def Denotes (bits : UInt64) (n : ℤ) : Prop :=
  isFinite bits = true ∧ signedUnits bits = n * (2 ^ 1074 : ℕ)

/-! ## Rounding a quotient -/

/-- No multiple of the denominator is nearer. -/
theorem roundDiv_nearest (num den j : ℕ) (hden : 0 < den) :
    ((roundDiv num den * den : ℕ) - num : ℤ).natAbs ≤ ((j * den : ℕ) - num : ℤ).natAbs := by
  have hnum := Nat.div_add_mod' num den
  have hr := Nat.mod_lt num hden
  -- a multiple is at or below the quotient, or above it
  have hj : j * den ≤ num / den * den ∨ num / den * den + den ≤ j * den := by
    rcases Nat.lt_or_ge (num / den) j with hlt | hge
    · right
      calc num / den * den + den = (num / den + 1) * den := (Nat.succ_mul _ _).symm
        _ ≤ j * den := Nat.mul_le_mul_right den hlt
    · exact Or.inl (Nat.mul_le_mul_right den hge)
  unfold roundDiv
  dsimp only
  split
  · rw [Nat.succ_mul]
    omega
  · omega

/-- What a number of `2 ^ k` or more rounds to is one too. -/
theorem le_roundDiv {num den q : ℕ} (hden : 0 < den) (h : q * den ≤ num) : q ≤ roundDiv num den := by
  have hq : q ≤ num / den := (Nat.le_div_iff_mul_le hden).mpr h
  unfold roundDiv
  dsimp only
  split
  · exact Nat.le_succ_of_le hq
  · exact hq

theorem roundDiv_le {num den q : ℕ} (hden : 0 < den) (h : num < q * den) : roundDiv num den ≤ q := by
  have hq : num / den < q := (Nat.div_lt_iff_lt_mul hden).mpr h
  unfold roundDiv
  dsimp only
  split
  · exact hq
  · exact hq.le

/-! ## The fields of a pattern -/

section

variable {magnitude : ℕ} (h : magnitude < 2 ^ 63)

include h

theorem toNat_ofSign (s : Bool) :
    (ofSign s magnitude).toNat = if s then 2 ^ 63 + magnitude else magnitude := by
  unfold ofSign
  rw [UInt64.toNat_ofNat']
  apply Nat.mod_eq_of_lt
  split <;> omega

theorem negative_ofSign (s : Bool) : negative (ofSign s magnitude) = s := by
  unfold negative
  rw [toNat_ofSign h]
  cases s with
  | true => simp
  | false => simpa using h

theorem exponent_ofSign (s : Bool) : exponent (ofSign s magnitude) = magnitude / 2 ^ 52 := by
  unfold exponent
  rw [toNat_ofSign h]
  split <;> omega

theorem fraction_ofSign (s : Bool) : fraction (ofSign s magnitude) = magnitude % 2 ^ 52 := by
  unfold fraction
  rw [toNat_ofSign h]
  split <;> omega

end

/-- A finite double is a number of 53 bits times a power of two. -/
theorem units_form (bits : UInt64) : ∃ f e, f < 2 ^ 53 ∧ units bits = f * 2 ^ e := by
  have hf : fraction bits < 2 ^ 52 := Nat.mod_lt _ (by decide)
  unfold units
  split
  · exact ⟨fraction bits, 0, by omega, by rw [Nat.pow_zero, Nat.mul_one]⟩
  · exact ⟨2 ^ 52 + fraction bits, exponent bits - 1, by omega, rfl⟩

/-- The pattern of `q` times a power of two. -/
theorem units_ofSign {q shift : ℕ} (hq : q ≤ 2 ^ 53) (hshift : shift ≠ 0 → 2 ^ 52 ≤ q)
    (hfin : q + shift * 2 ^ 52 < 2047 * 2 ^ 52) (s : Bool) :
    isFinite (ofSign s (q + shift * 2 ^ 52)) = true ∧
      units (ofSign s (q + shift * 2 ^ 52)) = q * 2 ^ shift := by
  have hlt : q + shift * 2 ^ 52 < 2 ^ 63 := by omega
  unfold isFinite units
  rw [exponent_ofSign hlt, fraction_ofSign hlt]
  refine ⟨decide_eq_true (by omega), ?_⟩
  by_cases hsmall : q < 2 ^ 52
  · obtain rfl : shift = 0 := by
      by_contra hne
      exact absurd (hshift hne) (by omega)
    rw [if_pos (by omega), Nat.pow_zero, Nat.mul_one]
    omega
  · rw [if_neg (by omega)]
    by_cases hcarry : q = 2 ^ 53
    · -- rounding up has reached the next power of two
      have hexp : (q + shift * 2 ^ 52) / 2 ^ 52 - 1 = shift + 1 := by omega
      have hfrac : (q + shift * 2 ^ 52) % 2 ^ 52 = 0 := by omega
      have hpow : 2 ^ (shift + 1) = 2 ^ shift * 2 := Nat.pow_succ ..
      rw [hexp, hfrac, hcarry, hpow]
      omega
    · have hexp : (q + shift * 2 ^ 52) / 2 ^ 52 - 1 = shift := by omega
      have hfrac : 2 ^ 52 + (q + shift * 2 ^ 52) % 2 ^ 52 = q := by omega
      rw [hexp, hfrac]

/-! ## The pattern of a quotient -/

/-- The power of two that the last bit of the rounded number stands for. -/
def shiftOf (num den : ℕ) : ℕ := Nat.log2 (num / den) - 52

/-- The rounded number has 53 bits, or fewer when its last bit is a unit. -/
theorem roundDiv_shiftOf (num : ℕ) {den : ℕ} (hden : 0 < den) :
    roundDiv num (den * 2 ^ shiftOf num den) ≤ 2 ^ 53 ∧
      (shiftOf num den ≠ 0 → 2 ^ 52 * (den * 2 ^ shiftOf num den) ≤ num) := by
  have hpow : 0 < den * 2 ^ shiftOf num den := Nat.mul_pos hden (Nat.two_pow_pos _)
  constructor
  · apply roundDiv_le hpow
    have hlog : num / den < 2 ^ 53 * 2 ^ shiftOf num den := by
      calc num / den < 2 ^ ((num / den).log2 + 1) := Nat.lt_log2_self
        _ ≤ 2 ^ (53 + shiftOf num den) :=
          Nat.pow_le_pow_right (by decide) (by unfold shiftOf; omega)
        _ = 2 ^ 53 * 2 ^ shiftOf num den := Nat.pow_add ..
    have hlt := (Nat.div_lt_iff_lt_mul hden).mp hlog
    rwa [Nat.mul_assoc, Nat.mul_comm (2 ^ shiftOf num den) den] at hlt
  · intro hne
    have hq : num / den ≠ 0 := by
      intro hzero
      apply hne
      unfold shiftOf
      rw [hzero]
      decide
    have hlog : 2 ^ 52 * 2 ^ shiftOf num den ≤ num / den := by
      calc 2 ^ 52 * 2 ^ shiftOf num den = 2 ^ (52 + shiftOf num den) := (Nat.pow_add ..).symm
        _ ≤ 2 ^ (num / den).log2 :=
          Nat.pow_le_pow_right (by decide) (by unfold shiftOf at hne ⊢; omega)
        _ ≤ num / den := Nat.log2_self_le hq
    have hle := (Nat.le_div_iff_mul_le hden).mp hlog
    rwa [Nat.mul_assoc, Nat.mul_comm (2 ^ shiftOf num den) den] at hle

/-- What does not overflow is the rounded number times its power of two. -/
theorem units_ofUnits {num den : ℕ} (hden : 0 < den) (hfin : ofUnits num den < 2047 * 2 ^ 52)
    (s : Bool) : isFinite (ofSign s (ofUnits num den)) = true ∧
      units (ofSign s (ofUnits num den)) =
        roundDiv num (den * 2 ^ shiftOf num den) * 2 ^ shiftOf num den := by
  obtain ⟨hq, hlow⟩ := roundDiv_shiftOf num hden
  have hpow : 0 < den * 2 ^ shiftOf num den := Nat.mul_pos hden (Nat.two_pow_pos _)
  have hform : ofUnits num den = min
      (roundDiv num (den * 2 ^ shiftOf num den) + shiftOf num den * 2 ^ 52) (2047 * 2 ^ 52) := by
    unfold ofUnits
    dsimp only
    congr 1
    show (if shiftOf num den = 0 then roundDiv num (den * 2 ^ shiftOf num den)
      else roundDiv num (den * 2 ^ shiftOf num den) + shiftOf num den * 2 ^ 52) = _
    split
    · rename_i hzero
      rw [hzero, Nat.zero_mul, Nat.add_zero]
    · rfl
  rw [hform] at hfin ⊢
  have hlt : roundDiv num (den * 2 ^ shiftOf num den) + shiftOf num den * 2 ^ 52 <
      2047 * 2 ^ 52 := by omega
  rw [Nat.min_eq_left hlt.le]
  exact units_ofSign hq (fun hne => le_roundDiv hpow (hlow hne)) hlt s

/-- Among the magnitudes of finite doubles none is nearer. -/
theorem magnitude_nearest (num : ℕ) {den : ℕ} (hden : 0 < den) {f : ℕ} (hf : f < 2 ^ 53) (e : ℕ) :
    ((roundDiv num (den * 2 ^ shiftOf num den) * (den * 2 ^ shiftOf num den) : ℕ) - num : ℤ).natAbs ≤
      ((f * 2 ^ e * den : ℕ) - num : ℤ).natAbs := by
  have hpow : 0 < den * 2 ^ shiftOf num den := Nat.mul_pos hden (Nat.two_pow_pos _)
  by_cases he : shiftOf num den ≤ e
  · -- a multiple of the power that was rounded to
    have hmul : f * 2 ^ e * den = f * 2 ^ (e - shiftOf num den) * (den * 2 ^ shiftOf num den) := by
      have hsplit : 2 ^ e = 2 ^ (e - shiftOf num den) * 2 ^ shiftOf num den := by
        rw [← Nat.pow_add, Nat.sub_add_cancel he]
      rw [hsplit, Nat.mul_comm den, ← Nat.mul_assoc, ← Nat.mul_assoc]
    rw [hmul]
    exact roundDiv_nearest num _ _ hpow
  · -- below the binade of the number
    have hlow := (roundDiv_shiftOf num hden).2 (by omega)
    have hnear := roundDiv_nearest num (den * 2 ^ shiftOf num den) (2 ^ 52) hpow
    have hbelow : f * 2 ^ e * den ≤ 2 ^ 52 * (den * 2 ^ shiftOf num den) := by
      have hshift : f * 2 ^ e ≤ 2 ^ 52 * 2 ^ shiftOf num den := by
        calc f * 2 ^ e ≤ 2 ^ 53 * 2 ^ e := Nat.mul_le_mul_right _ hf.le
          _ = 2 ^ 52 * 2 ^ (e + 1) := by
            have hsucc : 2 ^ (e + 1) = 2 ^ e * 2 := Nat.pow_succ ..
            omega
          _ ≤ 2 ^ 52 * 2 ^ shiftOf num den :=
            Nat.mul_le_mul_left _ (Nat.pow_le_pow_right (by decide) (by omega))
      calc f * 2 ^ e * den ≤ 2 ^ 52 * 2 ^ shiftOf num den * den := Nat.mul_le_mul_right _ hshift
        _ = 2 ^ 52 * (den * 2 ^ shiftOf num den) := by
          rw [Nat.mul_assoc, Nat.mul_comm (2 ^ shiftOf num den) den]
    omega

/-- **Rounding is to the nearest double**, as long as it does not overflow. -/
theorem ofUnits_nearest (s : Bool) {num den : ℕ} (hden : 0 < den)
    (hfin : ofUnits num den < 2047 * 2 ^ 52) :
    IsNearest (ofSign s (ofUnits num den)) (if s then -(num : ℤ) else num) den := by
  obtain ⟨hfinite, hunits⟩ := units_ofUnits hden hfin s
  have hmag : ofUnits num den < 2 ^ 63 := by omega
  refine ⟨hfinite, fun other _ => ?_⟩
  obtain ⟨f, e, hf, hother⟩ := units_form other
  have hnear := magnitude_nearest num hden hf e
  have hzero := magnitude_nearest num hden (Nat.two_pow_pos 53) 0
  rw [Nat.zero_mul, Nat.zero_mul] at hzero
  generalize hrounded : roundDiv num (den * 2 ^ shiftOf num den) = q at hnear hzero hunits
  have hq : ((q * 2 ^ shiftOf num den : ℕ) : ℤ) * den = (q * (den * 2 ^ shiftOf num den) : ℕ) := by
    rw [← Int.natCast_mul, Nat.mul_assoc, Nat.mul_comm (2 ^ shiftOf num den) den]
  have hf' : ((f * 2 ^ e : ℕ) : ℤ) * den = (f * 2 ^ e * den : ℕ) := (Int.natCast_mul ..).symm
  unfold distance signedUnits
  rw [negative_ofSign hmag, hunits, hother]
  generalize q * (den * 2 ^ shiftOf num den) = rounded at hnear hzero hq
  generalize f * 2 ^ e * den = candidate at hnear hf'
  cases s with
  | true =>
    cases negative other with
    | true | false => simp only [if_true, if_false, Bool.false_eq_true, neg_mul, hq, hf']; omega
  | false =>
    cases negative other with
    | true | false => simp only [if_true, if_false, Bool.false_eq_true, neg_mul, hq, hf']; omega

/-! ## Integers -/

/-- What has at most `k` bits more than 53 is rounded to a multiple of `2 ^ k`, or finer. -/
theorem shiftOf_le {num m : ℕ} (h : num < 2 ^ m) : shiftOf num 1 ≤ m - 53 := by
  unfold shiftOf
  rw [Nat.div_one]
  by_cases hzero : num = 0
  · rw [hzero]
    exact Nat.zero_le _
  · have hlog := (Nat.log2_lt hzero).mpr h
    omega

theorem ofUnits_lt {num m : ℕ} (h : num < 2 ^ m) (hm : m ≤ 2096) :
    ofUnits num 1 < 2047 * 2 ^ 52 := by
  have hshift := shiftOf_le h
  obtain ⟨hq, -⟩ := roundDiv_shiftOf num Nat.one_pos
  unfold ofUnits
  dsimp only
  show min (if shiftOf num 1 = 0 then roundDiv num (1 * 2 ^ shiftOf num 1)
    else roundDiv num (1 * 2 ^ shiftOf num 1) + shiftOf num 1 * 2 ^ 52) (2047 * 2 ^ 52) < _
  split <;> omega

theorem signed_natAbs (n : ℤ) (u : ℕ) :
    (if decide (n < 0) = true then -((n.natAbs * u : ℕ) : ℤ) else (n.natAbs * u : ℕ)) = n * u := by
  rw [Int.natCast_mul]
  by_cases hneg : n < 0
  · rw [if_pos (decide_eq_true hneg), ← Int.neg_mul]
    congr 1
    omega
  · rw [if_neg (by simpa using hneg)]
    congr 1
    omega

theorem mul_pow_lt {m k : ℕ} (h : m < 2 ^ k) (u : ℕ) : m * 2 ^ u < 2 ^ (k + u) := by
  rw [Nat.pow_add]
  exact Nat.mul_lt_mul_of_pos_right h (Nat.two_pow_pos u)

/-- **The double made of a 64-bit integer is the nearest one.** -/
theorem ofInt_nearest {n : ℤ} (h : n.natAbs < 2 ^ 64) :
    IsNearest (ofInt n) (n * (2 ^ 1074 : ℕ)) 1 := by
  have hnear := ofUnits_nearest (n < 0) Nat.one_pos (ofUnits_lt (mul_pow_lt h 1074) (by decide))
  rw [signed_natAbs] at hnear
  exact hnear

/-- A number of 53 bits times a power of two, in whatever unit it is counted. -/
theorem significant_of_eq {m f e u : ℕ} (hf : f < 2 ^ 53) (h : f * 2 ^ e = m * 2 ^ u) :
    ∃ f e, f < 2 ^ 53 ∧ m = f * 2 ^ e := by
  rcases Nat.le_total u e with hle | hle
  · refine ⟨f, e - u, hf, ?_⟩
    apply Nat.eq_of_mul_eq_mul_right (Nat.two_pow_pos u)
    rw [← h, Nat.mul_assoc, ← Nat.pow_add, Nat.sub_add_cancel hle]
  · have hm : f = m * 2 ^ (u - e) := by
      apply Nat.eq_of_mul_eq_mul_right (Nat.two_pow_pos e)
      rw [h, Nat.mul_assoc, ← Nat.pow_add, Nat.sub_add_cancel hle]
    refine ⟨m, 0, ?_, by rw [Nat.pow_zero, Nat.mul_one]⟩
    exact lt_of_le_of_lt (hm ▸ Nat.le_mul_of_pos_right m (Nat.two_pow_pos _)) hf

/-- **Which integers are doubles**: those of at most 53 significant bits. -/
theorem denotes_ofInt_iff {n : ℤ} (h : n.natAbs < 2 ^ 64) :
    Denotes (ofInt n) n ↔ ∃ f e, f < 2 ^ 53 ∧ n.natAbs = f * 2 ^ e := by
  constructor
  · rintro ⟨-, hunits⟩
    obtain ⟨f, e, hf, hform⟩ := units_form (ofInt n)
    have habs : f * 2 ^ e = n.natAbs * 2 ^ 1074 := by
      have hcongr := congrArg Int.natAbs hunits
      rw [Int.natAbs_mul, Int.natAbs_natCast] at hcongr
      rw [← hcongr, ← hform]
      unfold signedUnits
      split <;> omega
    exact significant_of_eq hf habs
  · rintro ⟨f, e, hf, hform⟩
    have hlt := ofUnits_lt (mul_pow_lt h 1074) (by decide)
    obtain ⟨hfinite, hunits⟩ := units_ofUnits Nat.one_pos hlt (n < 0)
    have hnum : f * 2 ^ (e + 1074) * 1 = n.natAbs * 2 ^ 1074 := by
      rw [Nat.mul_one, hform, Nat.mul_assoc, ← Nat.pow_add]
    have hnear := magnitude_nearest (n.natAbs * 2 ^ 1074) Nat.one_pos hf (e + 1074)
    rw [hnum, Int.sub_self, Int.natAbs_zero, Nat.one_mul] at hnear
    refine ⟨hfinite, ?_⟩
    unfold signedUnits ofInt
    rw [negative_ofSign (by omega), hunits, Nat.one_mul, ← signed_natAbs]
    have hexact := Int.sub_eq_zero.mp (Int.natAbs_eq_zero.mp (Nat.le_zero.mp hnear))
    rw [hexact]

end Codec.Binary64
