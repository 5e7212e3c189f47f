import AutomergeR.Slots

/-! # Putting a scalar and getting it back

Which scalars `am_get` returns as they were given to `am_put`: all but a missing logical
and a missing string, which are stored as `TRUE` and as `"NA"`.
-/

namespace AutomergeR

open Codec

variable {A : Type} [LinearOrder A]

namespace RValue

/-- `R_IsNA`. -/
def isNA (bits : UInt64) : Bool := ScalarValue.isNaN bits && bits.toNat % 2 ^ 32 = 1954

/-- `identical` on doubles: the zeros are one, and so are all NAs and all NaNs. -/
def identicalReal (a b : UInt64) : Bool :=
  if isNA a || isNA b then isNA a && isNA b
  else if ScalarValue.isNaN a || ScalarValue.isNaN b then
    ScalarValue.isNaN a && ScalarValue.isNaN b
  else ScalarValue.f64Eq a b

/-- `identical` on vectors of length one. -/
def identical : RValue → RValue → Bool
  | .logical cls [a], .logical cls' [b] => cls = cls' && a = b
  | .integer cls [a], .integer cls' [b] => cls = cls' && a = b
  | .double cls [a], .double cls' [b] => cls = cls' && identicalReal a b
  | .character cls [a], .character cls' [b] => cls = cls' && a = b
  | _, _ => false

/-- A length-one logical, integer, double or string without attributes, or a counter. -/
inductive Plain : RValue → Prop where
  | logical (b : Option Bool) : Plain (.logical [] [b])
  | integer (n : Int32) : Plain (.integer [] [n])
  | double (bits : UInt64) : Plain (.double [] [bits])
  | na : Plain (.character [] [.na])
  | utf8 (text : String) (noNul : '\x00' ∉ text.toList) : Plain (.character [] [.utf8 text noNul])
  | counter (n : Int32) : Plain (.integer ["am_counter"] [n])

/-- `NA` and `NA_character_`. -/
def isMissing : RValue → Bool
  | .logical _ [none] => true
  | .character _ [.na] => true
  | _ => false

theorem identicalReal_of_eq {a b : UInt64} (h : a = b ∨ ScalarValue.f64Eq a b = true) :
    identicalReal a b = true := by
  unfold identicalReal
  by_cases hna : (isNA a || isNA b) = true
  · rcases h with rfl | h
    · rw [if_pos hna]
      simpa using hna
    · -- a NaN equals nothing
      unfold ScalarValue.f64Eq at h
      unfold isNA at hna
      simp only [Bool.and_eq_true, Bool.not_eq_true'] at h
      simp [h.1.1, h.1.2] at hna
  · rw [if_neg hna]
    by_cases hnan : (ScalarValue.isNaN a || ScalarValue.isNaN b) = true
    · rcases h with rfl | h
      · rw [if_pos hnan]
        simpa using hnan
      · unfold ScalarValue.f64Eq at h
        simp only [Bool.and_eq_true, Bool.not_eq_true'] at h
        simp [h.1.1, h.1.2] at hnan
    · rw [if_neg hnan]
      rcases h with rfl | h
      · simp only [Bool.or_self, Bool.not_eq_true] at hnan
        simp [ScalarValue.f64Eq, hnan]
      · exact h

theorem identical_self {v : RValue} (h : Plain v) : identical v v = true := by
  cases h with
  | double bits => simp [identical, identicalReal_of_eq (Or.inl rfl)]
  | logical | integer | na | utf8 | counter => simp [identical]

end RValue

/-! ## The two directions -/

namespace ScalarValue

/-- Two scalars the library takes for the same differ at most in a float. -/
theorem eq_cases {w v : ScalarValue} (h : w.eq v = true) :
    w = v ∨ ∃ a b, w = .f64 a ∧ v = .f64 b ∧ f64Eq a b = true := by
  unfold eq at h
  split at h
  · exact Or.inr ⟨_, _, rfl, rfl, h⟩
  · exact Or.inl (of_decide_eq_true h)

theorem f64Eq_symm {a b : UInt64} (h : f64Eq a b = true) : f64Eq b a = true := by
  unfold f64Eq at h ⊢
  simp only [Bool.and_eq_true, Bool.or_eq_true, beq_iff_eq, Bool.not_eq_true'] at h ⊢
  exact ⟨⟨h.1.2, h.1.1⟩, h.2.imp Eq.symm And.symm⟩

theorem eq_symm {w v : ScalarValue} (h : w.eq v = true) : v.eq w = true := by
  rcases eq_cases h with rfl | ⟨a, b, rfl, rfl, hab⟩
  · exact h
  · exact f64Eq_symm hab

end ScalarValue

/-- What a scalar is stored as is read back as the scalar. -/
theorem OpSet.itemToR_scalarOf (s : OpSet A) {v : RValue} (hp : v.Plain)
    (hm : v.isMissing = false) {a : ScalarValue} (ha : scalarOf v = some a) :
    s.itemToR (.scalar a) = .ok (.value v) := by
  cases hp with
  | logical b =>
    cases b with
    | none => cases hm
    | some b =>
      cases ha
      rfl
  | integer n =>
    cases ha
    exact congrArg (Except.ok ∘ Got.value) (RValue.ofInt64_toInt [] n)
  | double bits =>
    cases ha
    rfl
  | na => cases hm
  | utf8 text noNul =>
    cases ha
    unfold itemToR
    dsimp only
    rw [dif_pos noNul]
  | counter n =>
    cases ha
    exact congrArg (Except.ok ∘ Got.value) (RValue.ofInt64_toInt _ n)

/-- The same of a scalar that the library takes for it. -/
theorem OpSet.itemToR_of_eq (s : OpSet A) {v : RValue} (hp : v.Plain) (hm : v.isMissing = false)
    {a w : ScalarValue} (ha : scalarOf v = some a) (hw : w.eq a = true) :
    ∃ u, s.itemToR (.scalar w) = .ok (.value u) ∧ v.identical u = true := by
  rcases ScalarValue.eq_cases hw with rfl | ⟨x, y, rfl, rfl, hxy⟩
  · exact ⟨v, s.itemToR_scalarOf hp hm ha, v.identical_self hp⟩
  · cases hp with
    | double bits =>
      cases ha
      refine ⟨.double [] [x], rfl, ?_⟩
      have hreal := RValue.identicalReal_of_eq (Or.inr (ScalarValue.f64Eq_symm hxy))
      simp [RValue.identical, hreal]
    | logical | integer | na | utf8 | counter => cases ha

/-! ## The law -/

/-- Whatever slot takes the value, `am_get` then returns an identical one. -/
def ReadsBack (A : Type) [LinearOrder A] (v : RValue) : Prop :=
  ∀ (tx : Tx A) (obj : ObjId A) (key : RValue), tx.Sound → tx.ops.IsSlot obj key →
    ∀ tx', tx.amPut obj key v = (tx', .ok ()) →
      ∃ u, tx'.ops.amGet obj key = .ok (.value u) ∧ v.identical u = true

theorem scalarOf_plain {v : RValue} (hp : v.Plain) : ∃ a, scalarOf v = some a := by
  cases hp with
  | logical | integer | double | na | utf8 | counter => exact ⟨_, rfl⟩

theorem readsBack_of_present {v : RValue} (hp : v.Plain) (hm : v.isMissing = false) :
    ReadsBack A v := by
  intro tx obj key h hs tx' heq
  obtain ⟨a, ha⟩ := scalarOf_plain hp
  obtain ⟨new, -, hget, hputs⟩ := Tx.amGet_amPut h hs ha heq
  rw [hget]
  cases hputs with
  | new => exact ⟨v, tx'.ops.itemToR_scalarOf hp hm ha, v.identical_self hp⟩
  | kept _ hw => exact tx'.ops.itemToR_of_eq hp hm ha hw

/-- What the missing values are stored as. -/
theorem not_identical_of_missing {v : RValue} (hp : v.Plain) (hm : v.isMissing = true)
    {a : ScalarValue} (ha : scalarOf v = some a) (s : OpSet A) :
    ∃ u, s.itemToR (.scalar a) = .ok (.value u) ∧ u.Plain ∧ scalarOf u = some a ∧
      v.identical u = false := by
  cases hp with
  | logical b =>
    cases b with
    | none =>
      cases ha
      exact ⟨.logical [] [some true], rfl, .logical _, rfl, rfl⟩
    | some b => cases hm
  | na =>
    cases ha
    have hnul : '\x00' ∉ "NA".toList := by decide
    refine ⟨.character [] [.utf8 "NA" hnul], ?_, .utf8 _ hnul, rfl, by simp [RValue.identical]⟩
    unfold OpSet.itemToR
    dsimp only
    rw [dif_pos hnul]
  | integer | double | utf8 | counter => cases hm

/-- The root of a new document takes every scalar. -/
theorem amPut_plain_new (actor : A) {v : RValue} (hp : v.Plain) :
    ∃ tx', (Tx.new actor).amPut none (.character [] [.lit "x"]) v = (tx', .ok ()) := by
  have hok : ((Tx.new actor).amPut none (.character [] [.lit "x"]) v).2 = .ok () := by
    apply (Tx.amPut_map_iff (Tx.fresh_new actor) rfl _ _).mpr
    refine ⟨by decide, ?_⟩
    cases hp with
    | logical | integer | double | na | utf8 | counter => rfl
  exact ⟨_, Prod.ext rfl hok⟩

/-- **Which scalars come back.** A scalar is read back from every slot exactly when it is
no missing logical and no missing string, and among these no two that R tells apart are
stored as the same value. -/
theorem amGet_amPut_identical_iff (actor : A) : (∀ v : RValue, v.Plain →
      (ReadsBack A v ↔ v.isMissing = false)) ∧
    ∀ v w : RValue, v.Plain → w.Plain → v.isMissing = false → w.isMissing = false →
      ∀ a b, scalarOf v = some a → scalarOf w = some b → a = b ∨ a.eq b = true →
        v.identical w = true := by
  constructor
  · intro v hp
    constructor
    · intro hreads
      apply Bool.eq_false_of_not_eq_true
      intro hm
      obtain ⟨a, ha⟩ := scalarOf_plain hp
      obtain ⟨tx', heq⟩ := amPut_plain_new actor hp
      have hs : (Tx.new actor).ops.IsSlot none (.character [] [.lit "x"]) := .key rfl
      have h := Tx.sound_new actor
      obtain ⟨u, hget, hid⟩ := hreads _ none _ h hs tx' heq
      obtain ⟨new, -, hget', hputs⟩ := Tx.amGet_amPut h hs ha heq
      obtain ⟨u', hu', -, -, hne⟩ := not_identical_of_missing hp hm ha tx'.ops
      cases hputs with
      | new =>
        rw [hget', hu'] at hget
        cases hget
        rw [hid] at hne
        cases hne
      | kept hold =>
        have hnone : (Tx.new actor).ops.find none (.character [] [.lit "x"]) = none := rfl
        rw [hnone] at hold
        cases hold
    · exact readsBack_of_present hp
  · intro v w hv hw hmv hmw a b ha hb hab
    have hread := (Tx.new actor).ops.itemToR_scalarOf hw hmw hb
    rcases hab with rfl | heq
    · rw [(Tx.new actor).ops.itemToR_scalarOf hv hmv ha] at hread
      cases hread
      exact v.identical_self hv
    · obtain ⟨u, hu, hid⟩ :=
        (Tx.new actor).ops.itemToR_of_eq hv hmv ha (ScalarValue.eq_symm heq)
      rw [hread] at hu
      cases hu
      exact hid

theorem amGet_amPut_identical_iff_integer :
    ReadsBack ℕ (.integer [] [7]) ∧ ¬ ReadsBack ℕ (.logical [] [none]) := by
  obtain ⟨hreads, -⟩ := amGet_amPut_identical_iff (1 : ℕ)
  refine ⟨(hreads _ (.integer 7)).mpr rfl, fun h => ?_⟩
  cases (hreads _ (.logical none)).mp h

/-- A missing logical put at a key of a new document is read back as `TRUE`, and stored
like it. -/
theorem amPut_na_logical : ¬ ReadsBack ℕ (.logical [] [none]) ∧
    (RValue.identical (.logical [] [none]) (.logical [] [some true]) = false ∧
      scalarOf (.logical [] [none]) = scalarOf (.logical [] [some true])) ∧
    RValue.identical (.character [] [.na]) (.character [] [.lit "NA"]) = false ∧
      scalarOf (.character [] [.na]) = scalarOf (.character [] [.lit "NA"]) := by
  refine ⟨fun h => ?_, ⟨rfl, rfl⟩, by decide, by decide⟩
  obtain ⟨u, hget, hid⟩ := h (Tx.new 1) none (.character [] [.lit "x"]) (Tx.sound_new 1)
    (.key rfl) _ rfl
  have htrue : u = .logical [] [some true] := by
    cases hget
    rfl
  rw [htrue] at hid
  cases hid

end AutomergeR
