import AutomergeR.Codec.Nearest
import AutomergeR.Counters

/-! # Integers of 64 bits

A peer may store any 64-bit integer, signed or unsigned, and any counter total. R's
integers have 32 bits, the smallest of which means NA. Beyond them `am_get` yields doubles,
and `am_put` stores a double as a double, or refuses it as a counter.
-/

namespace AutomergeR

open Codec

variable {A : Type} [LinearOrder A]

/-- The scalar holds the integer. -/
inductive ScalarValue.HoldsInteger : ScalarValue → ℤ → Prop where
  | int {n : ℤ} (h : InI64 n) : HoldsInteger (.int n) n
  | uint {n : ℕ} (h : n < 2 ^ 64) : HoldsInteger (.uint n) n
  | counter {n : ℤ} (h : InI64 n) : HoldsInteger (.counter n) n

/-- The numbers R's integers stand for. -/
def InRInteger (n : ℤ) : Prop := -2 ^ 31 < n ∧ n < 2 ^ 31

instance (n : ℤ) : Decidable (InRInteger n) := inferInstanceAs (Decidable (_ ∧ _))

/-- The integer has at most 53 significant bits, as doubles have. -/
def Significant (n : ℤ) : Prop := ∃ f e, f < 2 ^ 53 ∧ n.natAbs = f * 2 ^ e

namespace RValue

/-- The R value is the integer. -/
def Denotes : RValue → ℤ → Prop
  | .integer _ [i], n => i.toInt ≠ naInteger ∧ i.toInt = n
  | .double _ [bits], n => Binary64.Denotes bits n
  | _, _ => False

/-- It is the integer, or a double than which none is nearer. -/
def NearestTo : RValue → ℤ → Prop
  | .double _ [bits], n => Binary64.IsNearest bits (n * (2 ^ 1074 : ℕ)) 1
  | r, n => r.Denotes n

theorem natAbs_lt {n : ℤ} (h : -2 ^ 64 < n ∧ n < 2 ^ 64) : n.natAbs < 2 ^ 64 := by omega

/-- What a 64-bit integer is read as. -/
theorem ofInt64_spec (cls : List String) {n : ℤ} (h : -2 ^ 64 < n ∧ n < 2 ^ 64)
    (hmin : n ≠ -2 ^ 31) : (ofInt64 cls n).NearestTo n ∧
      ((ofInt64 cls n).Denotes n ↔ Significant n) := by
  have habs := natAbs_lt h
  by_cases hin : -2 ^ 31 ≤ n ∧ n < 2 ^ 31
  · have hread : ofInt64 cls n = .integer cls [Int32.ofInt n] := if_pos hin
    have hint : (Int32.ofInt n).toInt = n := Int32.toInt_ofInt_of_le hin.1 hin.2
    have hden : (ofInt64 cls n).Denotes n := by
      rw [hread]
      exact ⟨by rw [hint]; exact hmin, hint⟩
    rw [hread] at hden ⊢
    refine ⟨hden, fun _ => ⟨n.natAbs, 0, by omega, ?_⟩, fun _ => hden⟩
    rw [Nat.pow_zero, Nat.mul_one]
  · have hread : ofInt64 cls n = .double cls [Binary64.ofInt n] := if_neg hin
    rw [hread]
    exact ⟨Binary64.ofInt_nearest habs, Binary64.denotes_ofInt_iff habs⟩

end RValue

/-! ## Reading and putting back -/

/-- What `am_get` reads of an integer. -/
theorem OpSet.itemToR_integer (s : OpSet A) {v : ScalarValue} {n : ℤ} (hv : v.HoldsInteger n)
    (hmin : n ≠ -2 ^ 31) : ∃ r, s.itemToR (.scalar v) = .ok (.value r) ∧ r.NearestTo n ∧
      (r.Denotes n ↔ Significant n) := by
  cases hv with
  | int h =>
    exact ⟨_, rfl, RValue.ofInt64_spec [] ⟨by have := h.1; omega, by have := h.2; omega⟩ hmin⟩
  | uint h =>
    exact ⟨_, rfl, Binary64.ofInt_nearest (by omega), Binary64.denotes_ofInt_iff (by omega)⟩
  | counter h =>
    exact ⟨_, rfl, RValue.ofInt64_spec _ ⟨by have := h.1; omega, by have := h.2; omega⟩ hmin⟩

/-- What is read of an integer is stored as a scalar that reads the same, a counter as a
counter; all but a counter that R holds in a double. -/
theorem scalarOf_integer (s : OpSet A) {v : ScalarValue} {n : ℤ} (hv : v.HoldsInteger n)
    (hmin : n ≠ -2 ^ 31) {r : RValue} (hread : s.itemToR (.scalar v) = .ok (.value r)) :
    (v = .counter n → ¬ InRInteger n →
      encoding r = .unsupported "Counter must be a scalar integer") ∧
    ((v = .counter n → InRInteger n) →
      ∃ w, scalarOf r = some w ∧ (w = v ∨ ∃ bits, w = .f64 bits ∧ r = .double [] [bits] ∧
        v.eq w = false ∧ v ≠ .counter n)) := by
  have hint : ∀ {n : ℤ}, -2 ^ 31 ≤ n ∧ n < 2 ^ 31 → (Int32.ofInt n).toInt = n :=
    fun h => Int32.toInt_ofInt_of_le h.1 h.2
  cases hv with
  | int h =>
    refine ⟨fun he => absurd he (by simp), fun _ => ?_⟩
    obtain rfl : RValue.ofInt64 [] n = r := by
      cases hread
      rfl
    unfold RValue.ofInt64
    split
    · rename_i hin
      refine ⟨.int n, ?_, Or.inl rfl⟩
      unfold scalarOf
      show some (ScalarValue.int (Int32.ofInt n).toInt) = _
      rw [hint hin]
    · exact ⟨.f64 (Binary64.ofInt n), rfl, Or.inr ⟨_, rfl, rfl, rfl, by simp⟩⟩
  | uint h =>
    cases hread
    refine ⟨fun he => absurd he (by simp), fun _ => ?_⟩
    exact ⟨.f64 _, rfl, Or.inr ⟨_, rfl, rfl, rfl, by simp⟩⟩
  | counter h =>
    obtain rfl : RValue.ofInt64 ["am_counter"] n = r := by
      cases hread
      rfl
    unfold RValue.ofInt64
    constructor
    · intro _ hout
      rw [if_neg fun hin => hout ⟨lt_of_le_of_ne hin.1 (Ne.symm hmin), hin.2⟩]
      rfl
    · intro hin
      obtain ⟨hlo, hhi⟩ := hin rfl
      rw [if_pos ⟨hlo.le, hhi⟩]
      refine ⟨.counter n, ?_, Or.inl rfl⟩
      show some (ScalarValue.counter (Int32.ofInt n).toInt) = _
      rw [hint ⟨hlo.le, hhi⟩]

namespace Tx

variable {tx : Tx A} {obj : ObjId A} {key : RValue}

/-- **Integers of 64 bits in R.** Every integer but the smallest of 32 bits is read as
itself or as the nearest double, and as itself exactly when it has at most 53 significant
bits. Put back, it reads the same, and a counter is still one; only a counter beyond R's
integers is refused, and then nothing changes. -/
theorem amGet_integer (h : tx.Sound) (hs : tx.ops.IsSlot obj key) (hlen : key.length = 1)
    {v : ScalarValue} (hfind : tx.ops.find obj key = some (.scalar v)) {n : ℤ}
    (hv : v.HoldsInteger n) (hmin : n ≠ -2 ^ 31) :
    ∃ r, tx.ops.amGet obj key = .ok (.value r) ∧ r.NearestTo n ∧
      (r.Denotes n ↔ Significant n) ∧
      (v = .counter n → ¬ InRInteger n →
        tx.amPut obj key r = (tx, .error (.stop "Counter must be a scalar integer"))) ∧
      ((v = .counter n → InRInteger n) →
        ∃ tx', tx.amPut obj key r = (tx', .ok ()) ∧
          tx'.ops.amGet obj key = .ok (.value r) ∧
          (v = .counter n → tx'.ops.HoldsCounter obj key n)) := by
  obtain ⟨r, hread, hnear, hexact⟩ := tx.ops.itemToR_integer hv hmin
  obtain ⟨hrefused, hput⟩ := scalarOf_integer tx.ops hv hmin hread
  refine ⟨r, (OpSet.amGet_slot hs hlen hfind).trans hread, hnear, hexact, ?_, ?_⟩
  · intro hc hout
    obtain ⟨sl, hsl⟩ := slot_of_find hs hlen hfind h
    exact amPut_unsupported hsl (hrefused hc hout)
  · intro hin
    obtain ⟨w, hw, hsame⟩ := hput hin
    obtain ⟨tx', heq⟩ := amPut_returns h hs hlen hfind hw
    obtain ⟨new, hfind', hget, hputs⟩ := amGet_amPut h hs hw heq
    have hs' : tx'.ops.IsSlot obj key := by
      have hslot := isSlot_amPut h.toFresh hs r
      rwa [heq] at hslot
    rcases hsame with rfl | ⟨bits, rfl, rfl, hne, hc⟩
    · -- the scalar itself
      have hnew : new = .scalar w := by
        cases hputs with
        | new => rfl
        | kept hold =>
          rw [hfind] at hold
          cases hold
          rfl
      subst hnew
      refine ⟨tx', heq, hget.trans hread, fun hc => ⟨hs', hlen, ?_⟩⟩
      rw [hfind', hc]
    · -- a double in its place
      have hnew : new = .scalar (.f64 bits) := by
        cases hputs with
        | new => rfl
        | kept hold hw' =>
          rw [hfind] at hold
          cases hold
          rw [hne] at hw'
          cases hw'
      subst hnew
      exact ⟨tx', heq, hget, fun hc' => absurd hc' hc⟩

theorem amGet_integer_five : ∃ r,
    counterFive.ops.amGet none (.character [] [.lit "x"]) = .ok (.value r) ∧ r.Denotes 5 ∧
      ∃ tx', counterFive.amPut none (.character [] [.lit "x"]) r = (tx', .ok ()) ∧
        tx'.ops.HoldsCounter none (.character [] [.lit "x"]) 5 := by
  have hsound : counterFive.Sound := sound_amPut (sound_new 1) _ _ _
  obtain ⟨r, hget, -, hexact, -, hput⟩ := amGet_integer hsound counterFive_holds.slot rfl
    counterFive_holds.found (.counter ⟨by decide, by decide⟩) (by decide)
  obtain ⟨tx', heq, -, hcounter⟩ := hput fun _ => ⟨by decide, by decide⟩
  exact ⟨r, hget, hexact.mpr ⟨5, 0, by decide, by decide⟩, tx', heq, hcounter rfl⟩

/-- The integer 9007199254740993 is read as the double 9007199254740992, and the counter
2147483648 as a value that `am_put` refuses. -/
theorem amGet_integer_rounds :
    ((peer (.int 9007199254740993)).ops.find none (.character [] [.lit "x"]) =
        some (.scalar (.int 9007199254740993)) ∧
      ∃ r, (peer (.int 9007199254740993)).ops.amGet none (.character [] [.lit "x"]) =
          .ok (.value r) ∧ r.Denotes 9007199254740992 ∧ ¬ r.Denotes 9007199254740993) ∧
    (peer (.counter 2147483648)).ops.HoldsCounter none (.character [] [.lit "x"]) 2147483648 ∧
      ∃ r, (peer (.counter 2147483648)).ops.amGet none (.character [] [.lit "x"]) =
          .ok (.value r) ∧
        ((peer (.counter 2147483648)).amPut none (.character [] [.lit "x"]) r).2 =
          .error (.stop "Counter must be a scalar integer") := by
  have hint : (peer (.int 9007199254740993)).ops.find none (.character [] [.lit "x"]) =
      some (.scalar (.int 9007199254740993)) := by decide +kernel
  have hcounter : (peer (.counter 2147483648)).ops.HoldsCounter none
      (.character [] [.lit "x"]) 2147483648 := ⟨.key rfl, rfl, by decide +kernel⟩
  have hdouble : Binary64.ofInt 9007199254740993 = 0x4340000000000000 := by decide +kernel
  refine ⟨⟨hint, .double [] [0x4340000000000000], ?_, ⟨by decide +kernel, by decide +kernel⟩, ?_⟩,
    hcounter, .double ["am_counter"] [Binary64.ofInt 2147483648],
    OpSet.amGet_slot hcounter.slot rfl hcounter.found, rfl⟩
  · rw [← hdouble]
    exact OpSet.amGet_slot (.key rfl) rfl hint
  · rintro ⟨-, hunits⟩
    revert hunits
    decide +kernel

end Tx

end AutomergeR
