import AutomergeR.Counters
import AutomergeR.ListIndex

/-! # A list as an R list

What `am_put`, `am_insert` and `am_delete` do at the positions of a list, compared with
the same calls on an R list: positions count from one, `"end"` is behind the last element.
-/

namespace AutomergeR

open Codec

variable {A : Type}

/-! ## Calls on an R list -/

/-- A call on one list. -/
inductive ListCall where
  | put (pos value : RValue)
  | insert (pos value : RValue)
  | delete (pos : RValue)

namespace RValue

def isEnd : RValue → Bool
  | .character _ [k] => k.char = some "end"
  | _ => false

/-- The index a position stands for, counted from zero. -/
def index? (pos : RValue) : Option ℕ :=
  pos.truncated.bind fun i => if 1 ≤ i then some (i - 1).toNat else none

/-- A single number, NA, or `"end"`. -/
inductive IsPosition : RValue → Prop where
  | number {pos : RValue} (hk : pos.isNumeric = true) (hone : pos.length = 1) : IsPosition pos
  | na (cls : List String) : IsPosition (.logical cls [none])
  | last {pos : RValue} (h : pos.isEnd = true) : IsPosition pos

end RValue

/-- What a scalar is stored as. -/
def storedAs (value : RValue) : Value A := .scalar ((scalarOf value).getD .null)

namespace ListCall

def pos : ListCall → RValue
  | .put pos _ | .insert pos _ | .delete pos => pos

/-- The values are scalars that can be stored. -/
def storable : ListCall → Bool
  | .put _ value | .insert _ value => (scalarOf value).isSome
  | .delete _ => true

def deletesEnd : ListCall → Bool
  | .delete pos => pos.isEnd
  | _ => false

/-- The R list after a call, unless its position is none of the list's. -/
def apply (L : List (Value A)) : ListCall → Option (List (Value A))
  | .put pos value =>
    if pos.isEnd then some (L ++ [storedAs value])
    else pos.index?.bind fun i =>
      if i < L.length then some (L.set i (storedAs value))
      else if i = 0 then some [storedAs value]
      else none
  | .insert pos value =>
    if pos.isEnd then some (L ++ [storedAs value])
    else pos.index?.bind fun i =>
      if i ≤ L.length then some (L.insertIdx i (storedAs value)) else none
  | .delete pos => pos.index?.bind fun i => if i < L.length then some (L.eraseIdx i) else none

/-- The R list after a run, with a flag for each call that it returned. -/
def applyAll (L : List (Value A)) (calls : List ListCall) : List (Value A) × List Bool :=
  calls.foldl (fun (L, returned) c =>
    match c.apply L with
    | some L' => (L', returned ++ [true])
    | none => (L, returned ++ [false])) (L, [])

theorem length_apply {L L' : List (Value A)} {c : ListCall} (h : c.apply L = some L') :
    L'.length ≤ L.length + 1 := by
  cases c with
  | put key value =>
    unfold apply at h
    dsimp only at h
    by_cases hend : key.isEnd = true
    · rw [if_pos hend] at h
      cases h
      rw [List.length_append]
      exact le_refl _
    · rw [if_neg hend] at h
      obtain ⟨i, -, h⟩ := Option.bind_eq_some_iff.mp h
      by_cases hlt : i < L.length
      · rw [if_pos hlt] at h
        cases h
        rw [List.length_set]
        exact Nat.le_succ _
      · rw [if_neg hlt] at h
        by_cases hzero : i = 0
        · rw [if_pos hzero] at h
          cases h
          exact Nat.le_add_left 1 _
        · rw [if_neg hzero] at h
          cases h
  | insert key value =>
    unfold apply at h
    dsimp only at h
    by_cases hend : key.isEnd = true
    · rw [if_pos hend] at h
      cases h
      rw [List.length_append]
      exact le_refl _
    · rw [if_neg hend] at h
      obtain ⟨i, -, h⟩ := Option.bind_eq_some_iff.mp h
      by_cases hle : i ≤ L.length
      · rw [if_pos hle] at h
        cases h
        exact (List.length_insertIdx_of_le_length hle _).le
      · rw [if_neg hle] at h
        cases h
  | delete key =>
    obtain ⟨i, -, h⟩ := Option.bind_eq_some_iff.mp h
    by_cases hlt : i < L.length
    · rw [if_pos hlt] at h
      cases h
      exact (List.length_eraseIdx_le _ _).trans (Nat.le_succ _)
    · rw [if_neg hlt] at h
      cases h

theorem applyAll_append (L : List (Value A)) (calls : List ListCall) (c : ListCall) :
    applyAll L (calls ++ [c]) =
      ((c.apply (applyAll L calls).1).getD (applyAll L calls).1,
        (applyAll L calls).2 ++ [(c.apply (applyAll L calls).1).isSome]) := by
  unfold applyAll
  rw [List.foldl_append, List.foldl_cons, List.foldl_nil]
  generalize List.foldl _ (L, []) calls = reply
  obtain ⟨L', returned⟩ := reply
  dsimp only
  cases c.apply L' with
  | none => rfl
  | some L'' => rfl

end ListCall

variable [LinearOrder A]

namespace Tx

/-- A call on the list `obj` of a document. -/
def listCall (tx : Tx A) (obj : ObjId A) : ListCall → Reply A RError Unit
  | .put pos value => tx.amPut obj pos value
  | .insert pos value => tx.amInsert obj pos value
  | .delete pos => tx.amDelete obj pos

/-- A run of calls, with a flag for each that it returned. -/
def listCalls (tx : Tx A) (obj : ObjId A) (calls : List ListCall) : Tx A × List Bool :=
  calls.foldl (fun (tx, returned) c =>
    match tx.listCall obj c with
    | (tx, .ok ()) => (tx, returned ++ [true])
    | (tx, .error _) => (tx, returned ++ [false])) (tx, [])

end Tx

/-- Equal values, or scalars the library takes for equal: zeros of either sign. -/
def Value.Same (v w : Value A) : Prop :=
  v = w ∨ ∃ a b, v = .scalar a ∧ w = .scalar b ∧ a.eq b = true

/-- `am_length` and `am_get` read the list `L`. -/
structure OpSet.ReadsAs (s : OpSet A) (obj : ObjId A) (L : List (Value A)) : Prop where
  length : s.length obj = L.length
  within : ∀ pos : RValue, pos.isNumeric = true → pos.length = 1 → ∀ i w, pos.index? = some i →
    L[i]? = some w → ∃ v : Value A, v.Same w ∧ s.amGet obj pos = s.itemToR v
  beyond : ∀ pos : RValue, pos.isNumeric = true → pos.length = 1 →
    (∀ i ∈ pos.index?, L.length ≤ i) → s.amGet obj pos = .ok (.value .null)

/-! ## Positions -/

namespace RValue

theorem index?_cases {pos : RValue} (hone : pos.length = 1) :
    (1 ≤ pos.asInteger ∧ pos.index? = some (pos.asInteger - 1).toNat) ∨
      (pos.asInteger < 1 ∧ ∀ i ∈ pos.index?, 2 ^ 31 - 1 ≤ i) := by
  unfold index?
  cases hfits : pos.fits32 with
  | true =>
    rw [truncated_of_fits32 hfits, Option.bind_some]
    by_cases hpos : 1 ≤ pos.asInteger
    · exact Or.inl ⟨hpos, if_pos hpos⟩
    · refine Or.inr ⟨not_le.mp hpos, ?_⟩
      rw [if_neg hpos]
      exact fun i hi => by cases hi
  | false =>
    obtain ⟨hmin, -⟩ := asInteger_of_not_fits32 hone hfits
    refine Or.inr ⟨by rw [hmin]; decide, fun i hi => ?_⟩
    obtain ⟨d, hd, hi⟩ := Option.bind_eq_some_iff.mp hi
    have hout : ¬ (-2 ^ 31 ≤ d ∧ d < 2 ^ 31) := by
      intro hin
      unfold fits32 at hfits
      rw [hd, Option.any_some, decide_eq_false_iff_not] at hfits
      exact hfits hin
    split at hi
    · cases hi
      omega
    · cases hi

end RValue

/-- What `am_put_value` makes of a position of a list. -/
theorem slot_position {pos : RValue} (hp : pos.IsPosition) (forceInsert : Bool) :
    (pos.isEnd = true ∧ slot false pos forceInsert = .ok (.pos none true)) ∨
      (pos.isEnd = false ∧ ∃ i, pos.index? = some i ∧
        slot false pos forceInsert = .ok (.pos (some i) forceInsert)) ∨
      (pos.isEnd = false ∧ (∀ i ∈ pos.index?, 2 ^ 31 - 1 ≤ i) ∧
        ∃ e, slot false pos forceInsert = .error e) := by
  cases hp with
  | na cls =>
    exact Or.inr (Or.inr ⟨rfl, fun i hi => (by cases hi), _, rfl⟩)
  | last h =>
    left
    unfold RValue.isEnd at h
    split at h
    · have hend := of_decide_eq_true h
      refine ⟨h, ?_⟩
      unfold slot
      simp [hend]
    · cases h
  | number hk hone =>
    right
    have hslot : slot false pos forceInsert =
        if pos.asInteger < 1 then .error (.stop "List position must be positive")
        else .ok (.pos (some (pos.asInteger - 1).toNat) forceInsert) := by
      cases pos with
      | integer | double => simp [slot, hone]
      | null | logical | character | raw | list | namedList | other => cases hk
    have hend : pos.isEnd = false := by
      cases pos with
      | integer | double => rfl
      | null | logical | character | raw | list | namedList | other => cases hk
    rcases RValue.index?_cases hone with ⟨hpos, hi⟩ | ⟨hneg, hi⟩
    · exact Or.inl ⟨hend, _, hi, hslot.trans (if_neg (not_lt.mpr hpos))⟩
    · exact Or.inr ⟨hend, hi, _, hslot.trans (if_pos hneg)⟩

/-! ## The three operations on the values -/

namespace Tx

variable {tx : Tx A} {obj : ObjId A}

omit [LinearOrder A] in
theorem insertIdx_append {B : Type} (l l' : List B) (x : B) :
    (l ++ l').insertIdx l.length x = l ++ x :: l' := by
  induction l with
  | nil => rfl
  | cons y l ih => exact congrArg (y :: ·) ih

theorem items_doInsert (h : IndexedRows (tx.ops.rows obj)) {i : ℕ}
    (hi : i ≤ (OpSet.items (tx.ops.rows obj)).length) (v : ScalarValue) :
    ∃ tx' id, tx.doInsert obj .list i (.put v) = (tx', .ok id) ∧
      OpSet.items (tx'.ops.rows obj) = (OpSet.items (tx.ops.rows obj)).insertIdx i (.scalar v) := by
  rw [OpSet.length_items] at hi
  obtain ⟨tx', pos, elem, heq, hrows, hcount, -⟩ :=
    doInsert_index h hi (show (OpType.put v).isSetOrMake = true from rfl)
  refine ⟨tx', tx.nextId, heq, ?_⟩
  let new := row tx.nextId ⟨obj, .seq elem, true, .put v, []⟩
  have hnew : OpSet.items (new :: (tx.ops.rows obj).drop pos) =
      .scalar v :: OpSet.items ((tx.ops.rows obj).drop pos) := by
    unfold OpSet.items
    rw [List.filter_cons_of_pos rfl, List.map_cons, Row.value_put rfl rfl]
  rw [hrows, OpSet.items_append, hnew]
  conv_rhs => rw [← List.take_append_drop pos (tx.ops.rows obj), OpSet.items_append]
  rw [← hcount, ← OpSet.length_items, insertIdx_append]

omit [LinearOrder A] in
theorem items_place (p : OpSet.Place A) (hp : p.rows = tx.ops.rows obj) :
    OpSet.items (tx.ops.rows obj) =
      OpSet.items p.pre ++ p.row.value :: OpSet.items p.post := by
  rw [← hp, p.items]

omit [LinearOrder A] in
/-- A position within the list is a place. -/
theorem exists_place (h : IndexedRows (tx.ops.rows obj)) {i : ℕ}
    (hi : i < (OpSet.items (tx.ops.rows obj)).length) :
    ∃ p : OpSet.Place A, p.rows = tx.ops.rows obj ∧ p.index = i := by
  rw [OpSet.length_items] at hi
  obtain ⟨pos, hpos⟩ : ∃ pos, OpSet.nthPos (·.top) i (tx.ops.rows obj) = some pos := by
    apply Option.ne_none_iff_exists'.mp
    intro hnone
    exact absurd hi (not_lt.mpr (OpSet.nthPos_eq_none.mp hnone))
  obtain ⟨p, hp, hindex, -, -⟩ := h.topLast.place hpos
  exact ⟨p, hp, hindex⟩

theorem items_put (hfresh : tx.Fresh) (h : IndexedRows (tx.ops.rows obj)) {i : ℕ}
    (hi : i < (OpSet.items (tx.ops.rows obj)).length) (v : ScalarValue) :
    ∃ tx' id w, tx.localListOp obj .list i (.put v) = (tx', .ok id) ∧
      OpSet.items (tx'.ops.rows obj) = (OpSet.items (tx.ops.rows obj)).set i w ∧
      w.Same (.scalar v) := by
  obtain ⟨p, hp, rfl⟩ := exists_place h hi
  obtain ⟨tx', id, heq, -, p', hp', hpre, hpost, hrow⟩ :=
    localListOp_set hfresh p hp (show (OpType.put v).isSetOrMake = true from rfl)
  refine ⟨tx', id, p'.row.value, heq, ?_, ?_⟩
  · rw [items_place p' hp', items_place p hp, hpre, hpost, ← p.length_pre,
      List.set_append_right _ _ (le_refl _), Nat.sub_self, List.set_cons_zero]
  · rcases hrow with ⟨ha, hs, -⟩ | ⟨w, hw, hholds, hrow⟩
    · exact Or.inl (Row.value_put ha hs)
    · cases hw
      rw [hrow, hholds.value]
      exact Or.inr ⟨_, v, rfl, rfl, hholds.2.2⟩

theorem items_delete (hfresh : tx.Fresh) (h : IndexedRows (tx.ops.rows obj)) {i : ℕ}
    (hi : i < (OpSet.items (tx.ops.rows obj)).length) :
    ∃ tx' id, tx.localListOp obj .list i .delete = (tx', .ok id) ∧
      OpSet.items (tx'.ops.rows obj) = (OpSet.items (tx.ops.rows obj)).eraseIdx i := by
  obtain ⟨p, hp, rfl⟩ := exists_place h hi
  obtain ⟨tx', id, heq, -, hrows⟩ := localListOp_delete hfresh p hp
  refine ⟨tx', id, heq, ?_⟩
  have hnone := OpSet.items_eq_nil fun r hr => (p.succRows_ids tx.nextId r hr).2
  rw [hrows, OpSet.items_append, OpSet.items_append, hnone, List.append_nil, items_place p hp,
    ← p.length_pre, List.eraseIdx_append_of_length_le (le_refl _), Nat.sub_self,
    List.eraseIdx_cons_zero]

end Tx

/-! ## Reading -/

theorem OpSet.length_list {s : OpSet A} {obj : ObjId A} (ht : s.objectType obj = some .list)
    (h : IndexedRows (s.rows obj)) : s.length obj = (OpSet.items (s.rows obj)).length := by
  unfold length
  rw [ht, length_items]
  exact (countElems_eq h.topLast h.named).1

theorem OpSet.listGet_items {s : OpSet A} {obj : ObjId A} (ht : s.objectType obj = some .list)
    (h : IndexedRows (s.rows obj)) (i : ℕ) : s.listGet obj i = (OpSet.items (s.rows obj))[i]? := by
  unfold listGet seekOpsByIndex
  simp only [ht]
  rw [if_neg (by decide)]
  by_cases hi : i < (OpSet.items (s.rows obj)).length
  · rw [length_items] at hi
    obtain ⟨pos, hpos⟩ : ∃ pos, nthPos (·.top) i (s.rows obj) = some pos := by
      apply Option.ne_none_iff_exists'.mp
      intro hnone
      exact absurd hi (not_lt.mpr (nthPos_eq_none.mp hnone))
    obtain ⟨p, hp, rfl, -, -⟩ := h.topLast.place hpos
    rw [← hp, p.seek, p.getLast?, p.getElem?_items]
    rfl
  · have hnone : nthPos (·.top) i (s.rows obj) = none := by
      rw [nthPos_eq_none, ← length_items]
      exact not_lt.mp hi
    rw [List.getElem?_eq_none (not_lt.mp hi)]
    unfold seekListOpsByIndex
    rw [hnone]
    rfl

theorem OpSet.getList_items {s : OpSet A} {obj : ObjId A} (ht : s.objectType obj = some .list)
    (h : IndexedRows (s.rows obj)) (i : ℕ) :
    s.getList obj i = .ok (OpSet.items (s.rows obj))[i]? ∨
      (∃ e, s.getList obj i = .error e) ∧ (OpSet.items (s.rows obj))[i]? = none := by
  unfold getList
  cases hadjust : adjust (some i) false (s.length obj) with
  | error e =>
    right
    refine ⟨⟨e, rfl⟩, List.getElem?_eq_none ?_⟩
    rw [← length_list ht h]
    by_contra hlt
    have hlast : ¬ (if (false || decide (s.length obj = 0)) = true then s.length obj
        else s.length obj - 1) < i := by
      split <;> omega
    unfold adjust at hadjust
    dsimp only at hadjust
    rw [if_neg hlast] at hadjust
    cases hadjust
  | ok reply =>
    obtain ⟨index, insert⟩ := reply
    obtain rfl := adjust_pos hadjust
    left
    simp only [ht, listGet_items ht h]

/-- What is found at a position. -/
theorem OpSet.find_items {s : OpSet A} {obj : ObjId A} (ht : s.objectType obj = some .list)
    (h : IndexedRows (s.rows obj)) {pos : RValue} (hk : pos.isNumeric = true) : s.find obj pos =
      if pos.asInteger < 1 then none
      else (OpSet.items (s.rows obj))[(pos.asInteger - 1).toNat]? := by
  cases pos with
  | integer cls xs | double cls xs =>
    unfold find
    dsimp only
    rcases getList_items ht h _ with hget | ⟨⟨e, hget⟩, hnone⟩
    · rw [hget]
    · rw [hget, hnone]
  | null | logical | character | raw | list | namedList | other => cases hk

theorem OpSet.amGet_number (s : OpSet A) (obj : ObjId A) {pos : RValue}
    (hk : pos.isNumeric = true) (hone : pos.length = 1) : s.amGet obj pos =
      match s.find obj pos with
      | none => .ok (.value .null)
      | some v => s.itemToR v := by
  cases pos with
  | integer cls xs | double cls xs =>
    obtain ⟨x, rfl⟩ := List.length_eq_one_iff.mp hone
    exact s.amGet_find obj rfl rfl
  | null | logical | character | raw | list | namedList | other => cases hk

/-- A list whose values are, up to the sign of a zero, `L`. -/
theorem OpSet.readsAs_items {s : OpSet A} {obj : ObjId A} (ht : s.objectType obj = some .list)
    (h : IndexedRows (s.rows obj)) {L : List (Value A)}
    (hL : List.Forall₂ Value.Same (OpSet.items (s.rows obj)) L) (hlen : L.length < 2 ^ 31) :
    s.ReadsAs obj L where
  length := (length_list ht h).trans hL.length_eq
  within pos hk hone i w hi hw := by
    obtain ⟨hlt, rfl⟩ := List.getElem?_eq_some_iff.mp hw
    rcases RValue.index?_cases hone with ⟨hpos, hi'⟩ | ⟨-, hbeyond⟩
    · obtain rfl : (pos.asInteger - 1).toNat = i := Option.some.inj (hi'.symm.trans hi)
      have hlt' : (pos.asInteger - 1).toNat < (OpSet.items (s.rows obj)).length := by
        rw [hL.length_eq]
        exact hlt
      refine ⟨_, hL.get hlt' hlt, ?_⟩
      rw [amGet_number s obj hk hone, find_items ht h hk, if_neg (not_lt.mpr hpos),
        List.getElem?_eq_getElem hlt']
      rfl
    · have := hbeyond i hi
      omega
  beyond pos hk hone hbeyond := by
    have hnone : s.find obj pos = none := by
      rw [find_items ht h hk]
      rcases RValue.index?_cases hone with ⟨hpos, hi⟩ | ⟨hneg, -⟩
      · rw [if_neg (not_lt.mpr hpos), List.getElem?_eq_none]
        rw [hL.length_eq]
        exact hbeyond _ hi
      · rw [if_pos hneg]
    rw [amGet_number s obj hk hone, hnone]

/-! ## The calls -/

section

variable {B : Type} {R : B → B → Prop} {l l' : List B} {x y : B}

omit [LinearOrder A]

theorem forall₂_set (h : List.Forall₂ R l l') (hxy : R x y) :
    ∀ i, List.Forall₂ R (l.set i x) (l'.set i y) := by
  induction h with
  | nil => exact fun _ => .nil
  | cons hab h ih =>
    intro i
    cases i with
    | zero => exact .cons hxy h
    | succ i => exact .cons hab (ih i)

theorem forall₂_insertIdx (h : List.Forall₂ R l l') (hxy : R x y) :
    ∀ i, List.Forall₂ R (l.insertIdx i x) (l'.insertIdx i y) := by
  induction h with
  | nil =>
    intro i
    cases i with
    | zero => exact .cons hxy .nil
    | succ i => exact .nil
  | cons hab h ih =>
    intro i
    cases i with
    | zero => exact .cons hxy (.cons hab h)
    | succ i => exact .cons hab (ih i)

theorem forall₂_eraseIdx (h : List.Forall₂ R l l') :
    ∀ i, List.Forall₂ R (l.eraseIdx i) (l'.eraseIdx i) := by
  induction h with
  | nil => exact fun _ => .nil
  | cons hab h ih =>
    intro i
    cases i with
    | zero => exact h
    | succ i => exact .cons hab (ih i)

end

namespace Tx

variable {tx : Tx A} {obj : ObjId A}

theorem putItem_refused {pos : Option ℕ} {insert : Bool} {e : RError}
    (hadjust : adjust pos insert (tx.ops.length obj) = .error e) (item : Item) :
    tx.putItem obj (.pos pos insert) item = (tx, .error e) := by
  unfold putItem
  simp only [hadjust]

variable {item : Item} {v : ScalarValue} {pos : Option ℕ} {insert : Bool} {i : ℕ}

theorem putItem_inserts (ht : tx.ops.objectType obj = some .list)
    (h : IndexedRows (tx.ops.rows obj)) (hv : item.scalar? = some v)
    (hadjust : adjust pos insert (tx.ops.length obj) = .ok (i, true))
    (hi : i ≤ (OpSet.items (tx.ops.rows obj)).length) : ∃ tx' id,
      tx.putItem obj (.pos pos insert) item = (tx', .ok id) ∧
        OpSet.items (tx'.ops.rows obj) = (OpSet.items (tx.ops.rows obj)).insertIdx i (.scalar v) := by
  obtain ⟨tx', id, heq, hitems⟩ := items_doInsert h hi v
  have hins : tx.insert obj i (.put v) = (tx', .ok id) := by
    unfold Tx.insert objMeta
    rw [ht]
    exact heq
  refine ⟨tx', some id, ?_, hitems⟩
  unfold putItem
  simp only [hadjust]
  rw [insertItem_scalar hv, hins]
  rfl

theorem putItem_sets (hfresh : tx.Fresh) (ht : tx.ops.objectType obj = some .list)
    (h : IndexedRows (tx.ops.rows obj)) (hv : item.scalar? = some v)
    (hadjust : adjust pos insert (tx.ops.length obj) = .ok (i, false))
    (hi : i < (OpSet.items (tx.ops.rows obj)).length) : ∃ tx' id w,
      tx.putItem obj (.pos pos insert) item = (tx', .ok id) ∧
        OpSet.items (tx'.ops.rows obj) = (OpSet.items (tx.ops.rows obj)).set i w ∧
          w.Same (.scalar v) := by
  obtain ⟨tx', id, w, heq, hitems, hw⟩ := items_put hfresh h hi v
  have hput : tx.put obj (.seq i) v = (tx', .ok id) := by
    unfold put objMeta
    rw [ht]
    exact heq
  refine ⟨tx', id, w, ?_, hitems, hw⟩
  unfold putItem
  simp only [hadjust]
  rw [putProp_scalar hv, hput]
  rfl

/-- What a call owes an R list: the values `L'`, or an error where there are none, and
then nothing has changed. -/
def Obeys (tx : Tx A) (obj : ObjId A) (reply : Reply A RError Unit)
    (result : Option (List (Value A))) : Prop :=
  match result with
  | some L' => ∃ tx', reply = (tx', .ok ()) ∧
      List.Forall₂ Value.Same (OpSet.items (tx'.ops.rows obj)) L'
  | none => ∃ e, reply = (tx, .error e)

section

variable {L : List (Value A)} {key value : RValue} {sl : Slot} {forceInsert : Bool}

theorem obeys_inserts (ht : tx.ops.objectType obj = some .list)
    (h : IndexedRows (tx.ops.rows obj))
    (hL : List.Forall₂ Value.Same (OpSet.items (tx.ops.rows obj)) L)
    (hs : (scalarOf value).isSome = true) (hsl : slot false key forceInsert = .ok (.pos pos insert))
    (hadjust : adjust pos insert (tx.ops.length obj) = .ok (i, true)) (hi : i ≤ L.length) :
    Obeys tx obj (tx.putValue obj key false forceInsert value)
      (some (L.insertIdx i (storedAs value))) := by
  obtain ⟨v, hv⟩ := Option.isSome_iff_exists.mp hs
  obtain ⟨item, hitem, hscalar⟩ := item_of_scalarOf hv
  obtain ⟨tx', id, heq, hitems⟩ := putItem_inserts ht h hscalar hadjust (hL.length_eq ▸ hi)
  refine ⟨tx', ?_, ?_⟩
  · rw [putValue_of_item hitem hsl, heq]
    rfl
  · rw [hitems]
    apply forall₂_insertIdx hL
    unfold storedAs
    rw [hv]
    exact Or.inl rfl

theorem obeys_sets (hfresh : tx.Fresh) (ht : tx.ops.objectType obj = some .list)
    (h : IndexedRows (tx.ops.rows obj))
    (hL : List.Forall₂ Value.Same (OpSet.items (tx.ops.rows obj)) L)
    (hs : (scalarOf value).isSome = true) (hsl : slot false key forceInsert = .ok (.pos pos insert))
    (hadjust : adjust pos insert (tx.ops.length obj) = .ok (i, false)) (hi : i < L.length) :
    Obeys tx obj (tx.putValue obj key false forceInsert value)
      (some (L.set i (storedAs value))) := by
  obtain ⟨v, hv⟩ := Option.isSome_iff_exists.mp hs
  obtain ⟨item, hitem, hscalar⟩ := item_of_scalarOf hv
  obtain ⟨tx', id, w, heq, hitems, hw⟩ :=
    putItem_sets hfresh ht h hscalar hadjust (hL.length_eq ▸ hi)
  refine ⟨tx', ?_, ?_⟩
  · rw [putValue_of_item hitem hsl, heq]
    rfl
  · rw [hitems]
    apply forall₂_set hL
    unfold storedAs
    rw [hv]
    exact hw

theorem obeys_refused (hs : (scalarOf value).isSome = true)
    (hsl : slot false key forceInsert = .ok (.pos pos insert)) {e : RError}
    (hadjust : adjust pos insert (tx.ops.length obj) = .error e) :
    Obeys tx obj (tx.putValue obj key false forceInsert value) none := by
  obtain ⟨v, hv⟩ := Option.isSome_iff_exists.mp hs
  obtain ⟨item, hitem, -⟩ := item_of_scalarOf hv
  refine ⟨e, ?_⟩
  rw [putValue_of_item hitem hsl, putItem_refused hadjust]
  rfl

end

/-- `am_put` at a position of a list. -/
theorem obeys_put (hfresh : tx.Fresh) (ht : tx.ops.objectType obj = some .list)
    (h : IndexedRows (tx.ops.rows obj)) {L : List (Value A)}
    (hL : List.Forall₂ Value.Same (OpSet.items (tx.ops.rows obj)) L) (hlen : L.length + 1 < 2 ^ 31)
    {key value : RValue} (hp : key.IsPosition) (hs : (scalarOf value).isSome = true) :
    Obeys tx obj (tx.listCall obj (.put key value)) ((ListCall.put key value).apply L) := by
  have hlength : tx.ops.length obj = L.length := (OpSet.length_list ht h).trans hL.length_eq
  show Obeys tx obj (tx.putValue obj key (tx.isMap obj) false value) _
  rw [isMap_of_list ht]
  unfold ListCall.apply
  dsimp only
  rcases slot_position hp false with ⟨hend, hsl⟩ | ⟨hend, i, hi, hsl⟩ | ⟨hend, hbeyond, e, hsl⟩
  · have hadjust : adjust none true (tx.ops.length obj) = .ok (L.length, true) := by
      simp [adjust, hlength]
    rw [if_pos hend, ← List.insertIdx_length_self]
    exact obeys_inserts ht h hL hs hsl hadjust (le_refl _)
  · rw [if_neg (by rw [hend]; exact Bool.false_ne_true), hi, Option.bind_some]
    by_cases hlt : i < L.length
    · have hadjust : adjust (some i) false (tx.ops.length obj) = .ok (i, false) := by
        have hne : L.length ≠ 0 := Nat.ne_zero_of_lt hlt
        have hle : ¬ L.length - 1 < i := by omega
        simp [adjust, hlength, hne, hle]
      rw [if_pos hlt]
      exact obeys_sets hfresh ht h hL hs hsl hadjust hlt
    · rw [if_neg hlt]
      by_cases hzero : i = 0
      · -- an empty list is inserted into
        subst hzero
        have hnil : L = [] := List.eq_nil_of_length_eq_zero (Nat.eq_zero_of_not_pos hlt)
        subst hnil
        have hadjust : adjust (some 0) false (tx.ops.length obj) = .ok (0, true) := by
          simp [adjust, hlength]
        exact obeys_inserts ht h hL hs hsl hadjust (le_refl _)
      · have hadjust : adjust (some i) false (tx.ops.length obj) = .error (.invalidPos "pos" i) := by
          have hlast : (if L.length = 0 then L.length else L.length - 1) < i := by
            split <;> omega
          simp only [adjust, hlength, Bool.false_or, decide_eq_true_eq, hlast, if_true]
        rw [if_neg hzero]
        exact obeys_refused hs hsl hadjust
  · have hnone : (key.index?.bind fun i =>
        if i < L.length then some (L.set i (storedAs value))
        else if i = 0 then some [storedAs value] else none) = none := by
      cases hi : key.index? with
      | none => rfl
      | some i =>
        have hle := hbeyond i hi
        rw [Option.bind_some, if_neg (by omega), if_neg (by omega)]
    rw [if_neg (by rw [hend]; exact Bool.false_ne_true), hnone]
    exact ⟨e, putValue_refused hsl⟩

/-- `am_insert` at a position of a list. -/
theorem obeys_insert (ht : tx.ops.objectType obj = some .list)
    (h : IndexedRows (tx.ops.rows obj)) {L : List (Value A)}
    (hL : List.Forall₂ Value.Same (OpSet.items (tx.ops.rows obj)) L) (hlen : L.length + 1 < 2 ^ 31)
    {key value : RValue} (hp : key.IsPosition) (hs : (scalarOf value).isSome = true) :
    Obeys tx obj (tx.listCall obj (.insert key value)) ((ListCall.insert key value).apply L) := by
  have hlength : tx.ops.length obj = L.length := (OpSet.length_list ht h).trans hL.length_eq
  have hcall : tx.listCall obj (.insert key value) = tx.putValue obj key false true value :=
    if_pos ht
  rw [hcall]
  unfold ListCall.apply
  dsimp only
  rcases slot_position hp true with ⟨hend, hsl⟩ | ⟨hend, i, hi, hsl⟩ | ⟨hend, hbeyond, e, hsl⟩
  · have hadjust : adjust none true (tx.ops.length obj) = .ok (L.length, true) := by
      simp [adjust, hlength]
    rw [if_pos hend, ← List.insertIdx_length_self]
    exact obeys_inserts ht h hL hs hsl hadjust (le_refl _)
  · rw [if_neg (by rw [hend]; exact Bool.false_ne_true), hi, Option.bind_some]
    by_cases hle : i ≤ L.length
    · have hadjust : adjust (some i) true (tx.ops.length obj) = .ok (i, true) := by
        simp [adjust, hlength, not_lt.mpr hle]
      rw [if_pos hle]
      exact obeys_inserts ht h hL hs hsl hadjust hle
    · have hadjust : adjust (some i) true (tx.ops.length obj) = .error (.invalidPos "pos" i) := by
        simp [adjust, hlength, not_le.mp hle]
      rw [if_neg hle]
      exact obeys_refused hs hsl hadjust
  · have hnone : (key.index?.bind fun i =>
        if i ≤ L.length then some (L.insertIdx i (storedAs value)) else none) = none := by
      cases hi : key.index? with
      | none => rfl
      | some i =>
        have hge := hbeyond i hi
        rw [Option.bind_some, if_neg (by omega)]
    rw [if_neg (by rw [hend]; exact Bool.false_ne_true), hnone]
    exact ⟨e, putValue_refused hsl⟩

theorem delete_list (ht : tx.ops.objectType obj = some .list) (i : ℕ) :
    tx.delete obj (.seq i) = ((tx.localListOp obj .list i .delete).1,
      (tx.localListOp obj .list i .delete).2.map fun _ => ()) := by
  unfold delete objMeta
  rw [ht]
  rfl

section

variable {key : RValue} (hk : key.isNumeric = true) (hone : key.length = 1)

include hk hone

theorem amDelete_refused (hneg : key.asInteger < 1) : ∃ e, tx.amDelete obj key = (tx, .error e) := by
  cases key with
  | integer | double =>
    unfold amDelete
    dsimp only
    rw [if_neg (not_not.mpr hone), if_pos hneg]
    exact ⟨_, rfl⟩
  | null | logical | character | raw | list | namedList | other => cases hk

theorem amDelete_beyond (hpos : 1 ≤ key.asInteger) {e : RError}
    (hadjust : adjust (some (key.asInteger - 1).toNat) false (tx.ops.length obj) = .error e) :
    tx.amDelete obj key = (tx, .error e) := by
  cases key with
  | integer | double =>
    unfold amDelete
    dsimp only
    rw [if_neg (not_not.mpr hone), if_neg (not_lt.mpr hpos), hadjust]
  | null | logical | character | raw | list | namedList | other => cases hk

theorem amDelete_within (hpos : 1 ≤ key.asInteger) {index : ℕ} {insert : Bool}
    (hadjust : adjust (some (key.asInteger - 1).toNat) false (tx.ops.length obj) =
      .ok (index, insert)) : tx.amDelete obj key = lift (tx.delete obj (.seq index)) := by
  cases key with
  | integer | double =>
    unfold amDelete
    dsimp only
    rw [if_neg (not_not.mpr hone), if_neg (not_lt.mpr hpos), hadjust]
  | null | logical | character | raw | list | namedList | other => cases hk

end

/-- `am_delete` at a position of a list. -/
theorem obeys_delete (hfresh : tx.Fresh) (ht : tx.ops.objectType obj = some .list)
    (h : IndexedRows (tx.ops.rows obj)) {L : List (Value A)}
    (hL : List.Forall₂ Value.Same (OpSet.items (tx.ops.rows obj)) L) (hlen : L.length < 2 ^ 31)
    {key : RValue} (hp : key.IsPosition) (hend : key.isEnd = false) :
    Obeys tx obj (tx.listCall obj (.delete key)) ((ListCall.delete key).apply L) := by
  have hlength : tx.ops.length obj = L.length := (OpSet.length_list ht h).trans hL.length_eq
  show Obeys tx obj (tx.amDelete obj key) (key.index?.bind fun i =>
    if i < L.length then some (L.eraseIdx i) else none)
  cases hp with
  | na cls => exact ⟨_, rfl⟩
  | last hlast =>
    rw [hlast] at hend
    cases hend
  | number hk hone =>
    rcases RValue.index?_cases hone with ⟨hpos, hi⟩ | ⟨hneg, hbeyond⟩
    · rw [hi, Option.bind_some]
      have hwithin := @amDelete_within A _ tx obj key hk hone hpos
      have hbeyond := @amDelete_beyond A _ tx obj key hk hone hpos
      generalize (key.asInteger - 1).toNat = i at hwithin hbeyond
      by_cases hlt : i < L.length
      · have hadjust : adjust (some i) false (tx.ops.length obj) = .ok (i, false) := by
          have hne : L.length ≠ 0 := Nat.ne_zero_of_lt hlt
          have hle : ¬ L.length - 1 < i := by omega
          simp [adjust, hlength, hne, hle]
        obtain ⟨tx', id, heq, hitems⟩ := items_delete hfresh h (hL.length_eq ▸ hlt)
        rw [if_pos hlt]
        refine ⟨tx', ?_, ?_⟩
        · rw [hwithin hadjust, delete_list ht, heq]
          rfl
        · rw [hitems]
          exact forall₂_eraseIdx hL i
      · rw [if_neg hlt]
        cases hadjust : adjust (some i) false (tx.ops.length obj) with
        | error e => exact ⟨e, hbeyond hadjust⟩
        | ok reply =>
          -- only the first position of an empty list gets here
          obtain ⟨index, insert⟩ := reply
          obtain rfl := OpSet.adjust_pos hadjust
          have hnone : OpSet.nthPos (·.top) index (tx.ops.rows obj) = none := by
            rw [OpSet.nthPos_eq_none, ← OpSet.length_items, hL.length_eq]
            exact not_lt.mp hlt
          refine ⟨.op (.invalidIndex index), ?_⟩
          rw [hwithin hadjust, delete_list ht, localListOp_none .delete hnone]
          rfl
    · have hrefused : ∃ e, tx.amDelete obj key = (tx, .error e) := amDelete_refused hk hone hneg
      cases hindex : key.index? with
      | none => exact hrefused
      | some i =>
        have hge := hbeyond i hindex
        rw [Option.bind_some, if_neg (by omega)]
        exact hrefused

/-- `am_delete` takes any string for a key, and a list has none. -/
theorem amDelete_end (ht : tx.ops.objectType obj = some .list)
    (h : ListRows (tx.ops.rows obj)) {key : RValue} (hend : key.isEnd = true) :
    tx.amDelete obj key = (tx, .ok ()) := by
  unfold RValue.isEnd at hend
  split at hend
  · rename_i cls k
    have hk := of_decide_eq_true hend
    have hlocal : tx.localMapOp obj "end" .delete = (tx, .ok none) := by
      have hnone : OpSet.visibleAtKey (tx.ops.rows obj) "end" = [] :=
        visibleAtKey_list h.key "end"
      unfold localMapOp localOp
      dsimp only
      rw [hnone]
      rfl
    have hobj : tx.localObjOp obj .list (.map "end") .delete = (tx, .ok none) := by
      show tx.localMapOp obj "end" .delete = _
      exact hlocal
    have hdelete : tx.delete obj (.map "end") = (tx, .ok ()) := by
      unfold delete objMeta
      rw [ht]
      dsimp only
      rw [hobj]
      rfl
    unfold amDelete
    simp only [hk]
    rw [hdelete]
    rfl
  · cases hend

/-! ## Runs -/

theorem writes_putScalar (h : tx.Fresh) {key value : RValue} (hs : (scalarOf value).isSome = true)
    (isMap forceInsert : Bool) : Writes obj tx (tx.putValue obj key isMap forceInsert value).1 := by
  obtain ⟨v, hv⟩ := Option.isSome_iff_exists.mp hs
  obtain ⟨item, hitem, -⟩ := item_of_scalarOf hv
  cases hsl : slot isMap key forceInsert with
  | error e =>
    rw [putValue_refused hsl]
    exact Writes.refl obj tx
  | ok sl =>
    rw [putValue_of_item hitem hsl]
    exact writes_putItem h obj sl item

theorem writes_amDelete (h : tx.Fresh) (key : RValue) : Writes obj tx (tx.amDelete obj key).1 := by
  rcases amDelete_cases tx obj key with ⟨e, hcall⟩ | ⟨prop, hcall⟩
  · rw [hcall]
    exact Writes.refl obj tx
  · rw [hcall, lift_fst]
    exact writes_delete h obj prop

theorem writes_listCall (h : tx.Fresh) {c : ListCall} (hs : c.storable = true) :
    Writes obj tx (tx.listCall obj c).1 := by
  cases c with
  | put key value => exact writes_putScalar h hs _ false
  | insert key value =>
    show Writes obj tx (tx.amInsert obj key value).1
    unfold amInsert
    split
    · exact writes_putScalar h hs false true
    · exact Writes.refl obj tx
  | delete key => exact writes_amDelete h key

theorem keeps_listCall (h : tx.Keeps (Only obj RowsIndexed)) (c : ListCall) :
    (tx.listCall obj c).1.Keeps (Only obj RowsIndexed) := by
  cases c with
  | put key value => exact keeps_call (rowsIndexed_invariant.only obj) h (.put obj key value)
  | insert key value => exact keeps_call (rowsIndexed_invariant.only obj) h (.insert obj key value)
  | delete key => exact keeps_call (rowsIndexed_invariant.only obj) h (.delete obj key)

/-- One call, on a list that holds the values `L`. -/
theorem obeys_listCall (h : tx.Keeps (Only obj RowsIndexed)) (ht : tx.ops.objectType obj = some .list)
    {L : List (Value A)} (hL : List.Forall₂ Value.Same (OpSet.items (tx.ops.rows obj)) L)
    (hlen : L.length + 1 < 2 ^ 31) {c : ListCall} (hp : c.pos.IsPosition) (hs : c.storable = true)
    (hend : c.deletesEnd = false) : Obeys tx obj (tx.listCall obj c) (c.apply L) := by
  have hindexed : IndexedRows (tx.ops.rows obj) := h.kept obj .list ht rfl
  cases c with
  | put key value => exact obeys_put h.toFresh ht hindexed hL hlen hp hs
  | insert key value => exact obeys_insert ht hindexed hL hlen hp hs
  | delete key =>
    exact obeys_delete h.toFresh ht hindexed hL (Nat.lt_of_succ_lt hlen) hp hend

theorem listCalls_append (tx : Tx A) (obj : ObjId A) (calls : List ListCall) (c : ListCall) :
    tx.listCalls obj (calls ++ [c]) =
      (((tx.listCalls obj calls).1.listCall obj c).1, (tx.listCalls obj calls).2 ++
        [((tx.listCalls obj calls).1.listCall obj c).2.isOk]) := by
  unfold listCalls
  rw [List.foldl_append, List.foldl_cons, List.foldl_nil]
  generalize List.foldl _ (tx, []) calls = reply
  obtain ⟨tx', returned⟩ := reply
  dsimp only
  cases hcall : tx'.listCall obj c with
  | mk tx'' reply =>
    cases reply with
    | ok u => rfl
    | error e => rfl

omit [LinearOrder A] in
theorem Obeys.reply {reply : Reply A RError Unit} {L : List (Value A)}
    {result : Option (List (Value A))} (h : Obeys tx obj reply result)
    (hL : List.Forall₂ Value.Same (OpSet.items (tx.ops.rows obj)) L) :
    reply.2.isOk = result.isSome ∧
      List.Forall₂ Value.Same (OpSet.items (reply.1.ops.rows obj)) (result.getD L) := by
  cases result with
  | some L' =>
    obtain ⟨tx', rfl, hL'⟩ := h
    exact ⟨rfl, hL'⟩
  | none =>
    obtain ⟨e, rfl⟩ := h
    exact ⟨rfl, hL⟩

/-- A delete at `"end"` returns, where an R list would raise an error. -/
theorem returns_at_end (h : tx.Keeps (Only obj RowsIndexed)) (ht : tx.ops.objectType obj = some .list)
    {c : ListCall} (hend : c.deletesEnd = true) (L : List (Value A)) :
    (tx.listCall obj c).2.isOk = true ∧ c.apply L = none := by
  cases c with
  | put key value | insert key value => cases hend
  | delete key =>
    have hrows : IndexedRows (tx.ops.rows obj) := h.kept obj .list ht rfl
    have hcall : tx.listCall obj (.delete key) = (tx, .ok ()) :=
      amDelete_end ht hrows.toListRows hend
    have hindex : key.index? = none := by
      cases key with
      | character cls xs => rfl
      | null | logical | integer | double | raw | list | namedList | other => cases hend
    constructor
    · rw [hcall]
      rfl
    · unfold ListCall.apply
      dsimp only
      rw [hindex]
      rfl

theorem forall_append {P : ListCall → Prop} {calls : List ListCall} {c : ListCall} :
    (∀ d ∈ calls ++ [c], P d) ↔ (∀ d ∈ calls, P d) ∧ P c := by
  simp only [List.forall_mem_append, List.forall_mem_singleton]

/-- A run leaves the list a list, with a right index. -/
theorem keeps_listCalls (h : tx.Keeps (Only obj RowsIndexed)) (ht : tx.ops.objectType obj = some .list)
    {calls : List ListCall} (hs : ∀ c ∈ calls, c.storable = true) :
    (tx.listCalls obj calls).1.Keeps (Only obj RowsIndexed) ∧
      (tx.listCalls obj calls).1.ops.objectType obj = some .list := by
  induction calls using List.reverseRecOn with
  | nil => exact ⟨h, ht⟩
  | append_singleton calls c ih =>
    obtain ⟨hs, hsc⟩ := forall_append.mp hs
    obtain ⟨hkeeps, htype⟩ := ih hs
    rw [listCalls_append]
    exact ⟨keeps_listCall hkeeps c,
      ((writes_listCall hkeeps.toFresh hsc).objectType obj (hkeeps.made htype)).trans htype⟩

/-- The flags and the values of a run are those of the R list as long as no call deletes at
`"end"`, and the flags are wrong from there on. -/
theorem listCalls_obeys (h : tx.Keeps (Only obj RowsIndexed)) (ht : tx.ops.objectType obj = some .list)
    {L : List (Value A)} (hL : List.Forall₂ Value.Same (OpSet.items (tx.ops.rows obj)) L)
    {calls : List ListCall} (hcalls : ∀ c ∈ calls, c.pos.IsPosition ∧ c.storable = true)
    (hlen : L.length + calls.length < 2 ^ 31) :
    ((tx.listCalls obj calls).2 = (ListCall.applyAll L calls).2 ↔
        ∀ c ∈ calls, c.deletesEnd = false) ∧
      ((∀ c ∈ calls, c.deletesEnd = false) →
        List.Forall₂ Value.Same (OpSet.items ((tx.listCalls obj calls).1.ops.rows obj))
            (ListCall.applyAll L calls).1 ∧
          (ListCall.applyAll L calls).1.length ≤ L.length + calls.length) := by
  induction calls using List.reverseRecOn with
  | nil => exact ⟨iff_of_true rfl fun c hc => absurd hc List.not_mem_nil, fun _ => ⟨hL, le_refl _⟩⟩
  | append_singleton calls c ih =>
    obtain ⟨hcalls, hp, hs⟩ := forall_append.mp hcalls
    rw [List.length_append, List.length_singleton, ← Nat.add_assoc] at hlen
    obtain ⟨hflags, hvalues⟩ := ih hcalls (Nat.lt_of_succ_lt hlen)
    obtain ⟨hkeeps, htype⟩ := keeps_listCalls h ht fun d hd => (hcalls d hd).2
    rw [listCalls_append, ListCall.applyAll_append, forall_append, List.length_append,
      List.length_singleton, ← Nat.add_assoc]
    dsimp only
    generalize tx.listCalls obj calls = reply at hflags hvalues hkeeps htype
    generalize ListCall.applyAll L calls = result at hflags hvalues
    obtain ⟨tx', returned⟩ := reply
    obtain ⟨L', returned'⟩ := result
    dsimp only at hflags hvalues hkeeps htype ⊢
    have hstep : (∀ d ∈ calls, d.deletesEnd = false) → c.deletesEnd = false →
        (tx'.listCall obj c).2.isOk = (c.apply L').isSome ∧ List.Forall₂ Value.Same
          (OpSet.items ((tx'.listCall obj c).1.ops.rows obj)) ((c.apply L').getD L') := by
      intro hprev hend
      obtain ⟨hL', hle⟩ := hvalues hprev
      exact (obeys_listCall hkeeps htype hL' (by omega) hp hs hend).reply hL'
    constructor
    · constructor
      · intro heq
        obtain ⟨hprev, hlast⟩ := List.append_inj' heq rfl
        refine ⟨hflags.mp hprev, ?_⟩
        by_contra hend
        obtain ⟨hok, hnone⟩ := returns_at_end hkeeps htype (Bool.not_eq_false _ ▸ hend) L'
        rw [hok, hnone] at hlast
        cases hlast
      · rintro ⟨hprev, hend⟩
        rw [hflags.mpr hprev, (hstep hprev hend).1]
    · rintro ⟨hprev, hend⟩
      refine ⟨(hstep hprev hend).2, ?_⟩
      have hle := (hvalues hprev).2
      cases happly : c.apply L' with
      | none => exact hle.trans (Nat.le_succ _)
      | some L'' => exact (ListCall.length_apply happly).trans (Nat.succ_le_succ hle)

/-- A list under a run of calls is an R list under the same calls, if and only if none of
them deletes at `"end"`. -/
theorem listCalls_readsAs_iff (hfresh : tx.Fresh) (ht : tx.ops.objectType obj = some .list)
    (hindexed : IndexedRows (tx.ops.rows obj)) {calls : List ListCall}
    (hcalls : ∀ c ∈ calls, c.pos.IsPosition ∧ c.storable = true)
    (hlen : tx.ops.length obj + calls.length < 2 ^ 31) :
    ((tx.listCalls obj calls).2 =
          (ListCall.applyAll (OpSet.items (tx.ops.rows obj)) calls).2 ∧
        (tx.listCalls obj calls).1.ops.ReadsAs obj
          (ListCall.applyAll (OpSet.items (tx.ops.rows obj)) calls).1) ↔
      ∀ c ∈ calls, c.deletesEnd = false := by
  have h : tx.Keeps (Only obj RowsIndexed) := by
    refine ⟨hfresh, fun o t ho heq => ?_⟩
    obtain rfl : t = .list := Option.some.inj (ho.symm.trans (heq ▸ ht))
    exact heq ▸ hindexed
  have hL : List.Forall₂ Value.Same (OpSet.items (tx.ops.rows obj))
      (OpSet.items (tx.ops.rows obj)) := List.forall₂_same.mpr fun v _ => Or.inl rfl
  rw [OpSet.length_list ht hindexed] at hlen
  obtain ⟨hflags, hvalues⟩ := listCalls_obeys h ht hL hcalls hlen
  obtain ⟨hkeeps, htype⟩ := keeps_listCalls h ht fun c hc => (hcalls c hc).2
  constructor
  · rintro ⟨heq, -⟩
    exact hflags.mp heq
  · intro hend
    obtain ⟨hsame, hle⟩ := hvalues hend
    exact ⟨hflags.mpr hend, OpSet.readsAs_items htype (hkeeps.kept obj .list htype rfl) hsame
      (hle.trans_lt hlen)⟩

/-- A new document with an empty list under the key `l`. -/
def listL : Tx ℕ :=
  (Tx.new 1).call (.put none (.character [] [.lit "l"]) (.list ["am_list_type", "list"] []))

/-- Put, append and delete: the list is left with its last element. -/
def putAppendDelete : List ListCall :=
  [.put (.integer [] [1]) (.integer [] [5]), .insert (.character [] [.lit "end"]) (.integer [] [7]),
    .delete (.integer [] [1])]

theorem listCalls_readsAs_iff_listL :
    (listL.listCalls (some ⟨1, 1⟩) putAppendDelete).2 = [true, true, true] ∧
      (listL.listCalls (some ⟨1, 1⟩) putAppendDelete).1.ops.ReadsAs (some ⟨1, 1⟩)
        [.scalar (.int 7)] := by
  have hkeeps : listL.Keeps RowsIndexed :=
    keeps_call rowsIndexed_invariant (keeps_new rowsIndexed_invariant 1) _
  have hcalls : ∀ c ∈ putAppendDelete, c.pos.IsPosition ∧ c.storable = true := by
    simp only [putAppendDelete, List.forall_mem_cons]
    exact ⟨⟨.number rfl rfl, rfl⟩, ⟨.last rfl, rfl⟩, ⟨.number rfl rfl, rfl⟩,
      fun c hc => absurd hc List.not_mem_nil⟩
  exact (listCalls_readsAs_iff hkeeps.toFresh rfl (hkeeps.kept _ .list rfl) hcalls (by decide)).mpr (by decide)

/-- `am_delete` at `"end"` of an empty list returns. -/
theorem amDelete_end_returns :
    listL.ops.objectType (some ⟨1, 1⟩) = some .list ∧
      (listL.listCalls (some ⟨1, 1⟩) [.delete (.character [] [.lit "end"])]).2 = [true] ∧
      (ListCall.applyAll (OpSet.items (listL.ops.rows (some ⟨1, 1⟩)))
        [.delete (.character [] [.lit "end"])]).2 = [false] := by
  refine ⟨by decide, by decide, by decide⟩

end Tx

end AutomergeR
