import AutomergeR.SoundCalls

/-! # The values of marks

`objects.c` and `cursors.c` have an encoder and a decoder of scalars each. Where the two
agree, for all R values and all scalars of the library.
-/

namespace AutomergeR

open Codec

variable {A : Type} [LinearOrder A]

/-! ## Reading -/

/-- `cetype_t`. -/
inductive CEType where
  | native
  | utf8
  deriving DecidableEq

/-- What `Rf_mkCharLenCE` marks the string of a scalar with, given `enc`. A string of ASCII
alone bears no mark. -/
def charEncoding (enc : CEType) : ScalarValue → Option CEType
  | .str text => some (if text.toList.all fun c => c.toNat < 128 then .native else enc)
  | _ => none

/-- `amitem_to_r_value`. -/
def markToR (v : ScalarValue) : Except RError RValue :=
  match v with
  | .null => .ok .null
  | .boolean b => .ok (.logical [] [some b])
  | .int n => .ok (RValue.ofInt64 [] n)
  | .uint n =>
    if 2 ^ 31 ≤ n then .ok (.double [] [Binary64.ofInt n]) else .ok (.integer [] [Int32.ofInt n])
  | .f64 bits => .ok (.double [] [bits])
  | .str text =>
    if h : '\x00' ∉ text.toList then .ok (.character [] [.utf8 text h])
    else .error (.stop "embedded nul in string")
  | .bytes bytes => .ok (.raw [] bytes)
  | .timestamp ms =>
    .ok (.double ["POSIXct", "POSIXt"] [Binary64.scale (Binary64.ofInt ms) 1 1000])
  | .counter n =>
    if -2 ^ 31 ≤ n ∧ n < 2 ^ 31 then .ok (.integer ["am_counter"] [Int32.ofInt n])
    else .ok (.double [] [Binary64.ofInt n])
  | _ => .error (.stop "Unsupported mark value type")

/-- The list `convert_mark_to_r_list` makes. -/
def markList (name : RString) (value : RValue) (start stop : ℕ) : RValue :=
  .namedList [] [(.lit "name", .character [] [name]), (.lit "value", value),
    (.lit "start", .integer [] [Int32.ofNat start]), (.lit "end", .integer [] [Int32.ofNat stop])]

/-- `convert_mark_to_r_list`. -/
def convertMark (m : Mark) : Except RError RValue :=
  if h : '\x00' ∉ m.name.toList then
    match markToR m.value with
    | .ok value => .ok (markList (.utf8 m.name h) value m.start m.stop)
    | .error e => .error e
  else .error (.stop "embedded nul in string")

/-- `C_am_marks`. -/
def OpSet.amMarks (s : OpSet A) (obj : ObjId A) : Except RError (List RValue) :=
  (s.marks obj).mapM convertMark

/-- What a listed mark holds. -/
theorem convertMark_ok {m : Mark} {list : RValue} (h : convertMark m = .ok list) :
    ∃ name value, markToR m.value = .ok value ∧ list = markList name value m.start m.stop := by
  unfold convertMark at h
  split at h
  · split at h
    · rename_i value hvalue
      cases h
      exact ⟨_, value, hvalue, rfl⟩
    · cases h
  · cases h

/-- The value field of what `am_marks` lists is what `amitem_to_r_value` makes of the mark's
scalar. -/
theorem amMarks_values {s : OpSet A} {obj : ObjId A} {lists : List RValue}
    (h : s.amMarks obj = .ok lists) :
    List.Forall₂ (fun m list => ∃ name value, markToR m.value = .ok value ∧
      list = markList name value m.start m.stop) (s.marks obj) lists := by
  unfold OpSet.amMarks at h
  generalize s.marks obj = marks at h ⊢
  induction marks generalizing lists with
  | nil =>
    cases h
    exact .nil
  | cons m marks ih =>
    rw [List.mapM_cons] at h
    cases hm : convertMark m with
    | error e =>
      rw [hm] at h
      cases h
    | ok list =>
      cases hrest : marks.mapM convertMark with
      | error e =>
        rw [hm, hrest] at h
        cases h
      | ok rest =>
        rw [hm, hrest] at h
        cases h
        exact .cons (convertMark_ok hm) (ih hrest)

/-! ## The two decoders -/

/-- What `am_get` reads of a scalar is what `am_marks` makes of it: both fail, or it is the
same value with its string marked the same. -/
def SameRead (got : Except RError (Got A)) (v : ScalarValue) : Prop :=
  match got, markToR v with
  | .ok got, .ok value => got = .value value ∧ charEncoding .native v = charEncoding .utf8 v
  | .error _, .error _ => True
  | _, _ => False

/-- No unsigned integer that R's integers hold, no counter beyond them, and no string that
R can hold and that is not ASCII. -/
def readsAlike : ScalarValue → Bool
  | .uint n => 2 ^ 31 ≤ n
  | .counter n => -2 ^ 31 ≤ n ∧ n < 2 ^ 31
  | .str text => '\x00' ∈ text.toList || text.toList.all fun c => c.toNat < 128
  | _ => true

theorem sameRead_iff (s : OpSet A) (v : ScalarValue) :
    SameRead (s.itemToR (.scalar v)) v ↔ readsAlike v = true := by
  cases v with
  | bytes | int | f64 | boolean | timestamp | null => exact ⟨fun _ => rfl, fun _ => ⟨rfl, rfl⟩⟩
  | unknown => exact ⟨fun _ => rfl, fun _ => trivial⟩
  | uint n =>
    unfold SameRead
    by_cases hn : 2 ^ 31 ≤ n
    · have hmark : markToR (.uint n) = .ok (.double [] [Binary64.ofInt n]) := if_pos hn
      rw [hmark]
      exact ⟨fun _ => decide_eq_true hn, fun _ => ⟨rfl, rfl⟩⟩
    · have hmark : markToR (.uint n) = .ok (.integer [] [Int32.ofInt n]) := if_neg hn
      rw [hmark]
      constructor
      · rintro ⟨heq, -⟩
        cases heq
      · intro halike
        exact absurd (of_decide_eq_true halike) hn
  | counter n =>
    unfold SameRead
    by_cases hn : -2 ^ 31 ≤ n ∧ n < 2 ^ 31
    · have hmark : markToR (.counter n) = .ok (.integer ["am_counter"] [Int32.ofInt n]) := if_pos hn
      have hget : RValue.ofInt64 ["am_counter"] n = .integer ["am_counter"] [Int32.ofInt n] :=
        if_pos hn
      rw [hmark]
      refine ⟨fun _ => decide_eq_true hn, fun _ => ⟨?_, rfl⟩⟩
      rw [← hget]
    · have hmark : markToR (.counter n) = .ok (.double [] [Binary64.ofInt n]) := if_neg hn
      have hget : RValue.ofInt64 ["am_counter"] n = .double ["am_counter"] [Binary64.ofInt n] :=
        if_neg hn
      rw [hmark]
      constructor
      · rintro ⟨heq, -⟩
        -- the class is lost
        rw [hget] at heq
        cases heq
      · intro halike
        exact absurd (of_decide_eq_true halike) hn
  | str text =>
    have hmark : markToR (.str text) =
        if h : '\x00' ∉ text.toList then .ok (.character [] [.utf8 text h])
        else .error (.stop "embedded nul in string") := rfl
    have hget : s.itemToR (.scalar (.str text)) =
        if h : '\x00' ∉ text.toList then .ok (.value (.character [] [.utf8 text h]))
        else .error (.stop "embedded nul in string") := rfl
    unfold SameRead
    rw [hmark, hget]
    unfold readsAlike charEncoding
    by_cases hnul : '\x00' ∈ text.toList
    · rw [dif_neg (not_not.mpr hnul), dif_neg (not_not.mpr hnul)]
      simp [hnul]
    · rw [dif_pos hnul, dif_pos hnul]
      cases hascii : text.toList.all fun c => c.toNat < 128 <;> simp [hnul]

/-! ## The two encoders -/

/-- What `am_put` stores of a value that makes no object. -/
def putStored (v : RValue) : Except RError ScalarValue :=
  match encoding v with
  | .item item =>
    match item.scalar? with
    | some a => .ok a
    | none => .error .invalidUtf8
  | .unsupported message => .error (.stop message)
  | .text _ | .object _ => .error (.stop "not a scalar")

/-- What `am_mark_create` stores. A value without an item ends the R process. -/
def markStored (v : RValue) : Except RError ScalarValue :=
  match markItem v with
  | .ok (some a) => .ok a
  | .ok none => .error .abort
  | .error e => .error e

/-- Neither a list nor a marker of a text or of an object. -/
def RValue.isPlainValue (v : RValue) : Bool :=
  !v.inherits "am_text_type" && !v.inherits "am_obj_type" &&
    match v with
    | .list _ _ | .namedList _ _ => false
    | _ => true

/-- Both encoders store the same scalar, or both raise an error. -/
def SameStored (v : RValue) : Prop :=
  match putStored v, markStored v with
  | .ok a, .ok b => a = b
  | .error e, .error e' => e ≠ .abort ∧ e' ≠ .abort
  | _, _ => False

/-- A string that is not UTF-8, where no class takes precedence. -/
def RValue.isInvalidString (v : RValue) : Bool :=
  match v with
  | .character _ [.invalid _] => !v.inherits "POSIXct" && !v.inherits "am_counter"
  | _ => false

/-- How the two dispatches correspond: they take the same scalar of a value, or the same
string, or refuse it. -/
inductive Dispatch (v : RValue) : Prop where
  | scalar {a : ScalarValue} (hput : encoding v = .item (.scalar a))
      (hmark : markItem v = .ok (some a)) (hv : v.isInvalidString = false) : Dispatch v
  | str {text : RString} (hput : encoding v = .item (.str text))
      (hmark : markItem v = .ok (text.char.map ScalarValue.str))
      (hv : v.isInvalidString = true ↔ text.char = none) : Dispatch v
  | refused {message message' : String} (hput : encoding v = .unsupported message)
      (hmark : markItem v = .error (.stop message')) (hv : v.isInvalidString = false) : Dispatch v

theorem invalidString_of_class {v : RValue}
    (h : v.inherits "POSIXct" = true ∨ v.inherits "am_counter" = true) :
    v.isInvalidString = false := by
  unfold RValue.isInvalidString
  split
  · rcases h with h | h <;> simp [h]
  · rfl

/-- A value with the class of a counter. -/
theorem dispatch_counter {v : RValue} (htime : ¬ v.inherits "POSIXct" = true)
    (hcount : v.inherits "am_counter" = true) : Dispatch v := by
  have hno := invalidString_of_class (Or.inr hcount)
  have hone : ∀ cls n, v = .integer cls [n] → Dispatch v := by
    rintro cls n rfl
    exact .scalar (a := .counter n.toInt) (by simp [encoding, htime, hcount])
      (by simp [markItem, htime, hcount]) hno
  have hrefused : (∀ cls n, v ≠ .integer cls [n]) → Dispatch v := by
    intro hne
    apply @Dispatch.refused v "Counter must be a scalar integer" "Counter must be a scalar integer"
    · unfold encoding
      rw [if_neg htime, if_pos hcount]
      split
      · exact absurd rfl (hne _ _)
      · rfl
    · unfold markItem
      rw [if_neg htime, if_pos hcount]
      split
      · exact absurd rfl (hne _ _)
      · rfl
    · exact hno
  by_cases h : ∃ cls n, v = .integer cls [n]
  · obtain ⟨cls, n, hv⟩ := h
    exact hone cls n hv
  · exact hrefused fun cls n hv => h ⟨cls, n, hv⟩

/-- A value whose class means nothing to the encoders. -/
theorem dispatch_type {v : RValue} (htime : ¬ v.inherits "POSIXct" = true)
    (hcount : ¬ v.inherits "am_counter" = true) (hv : v.isPlainValue = true) : Dispatch v := by
  unfold RValue.isPlainValue at hv
  simp only [Bool.and_eq_true, Bool.not_eq_true'] at hv
  obtain ⟨⟨htext, hobj⟩, hlist⟩ := hv
  have hrefused : encoding v = .unsupported "Unsupported value type for am_put()" →
      markItem v = .error (.stop "Unsupported mark value type") → v.isInvalidString = false →
      Dispatch v := .refused
  cases v with
  | null => exact .scalar rfl rfl rfl
  | list | namedList => cases hlist
  | raw cls bytes =>
    exact .scalar (a := .bytes bytes) (by simp [encoding, htime, hcount, htext])
      (by simp [markItem, htime, hcount]) rfl
  | other cls n =>
    exact hrefused (by simp [encoding, htime, hcount, htext]) (by simp [markItem, htime, hcount]) rfl
  | logical cls xs =>
    rcases xs with _ | ⟨b, _ | ⟨_, _⟩⟩
    · exact hrefused (by simp [encoding, htime, hcount, htext]) (by simp [markItem, htime, hcount])
        rfl
    · exact .scalar (a := .boolean (b.getD true)) (by simp [encoding, htime, hcount, htext])
        (by simp [markItem, htime, hcount]) rfl
    · exact hrefused (by simp [encoding, htime, hcount, htext]) (by simp [markItem, htime, hcount])
        rfl
  | integer cls xs =>
    rcases xs with _ | ⟨n, _ | ⟨_, _⟩⟩
    · exact hrefused (by simp [encoding, htime, hcount, htext]) (by simp [markItem, htime, hcount])
        rfl
    · exact .scalar (a := .int n.toInt) (by simp [encoding, htime, hcount, htext])
        (by simp [markItem, htime, hcount]) rfl
    · exact hrefused (by simp [encoding, htime, hcount, htext]) (by simp [markItem, htime, hcount])
        rfl
  | double cls xs =>
    rcases xs with _ | ⟨bits, _ | ⟨_, _⟩⟩
    · exact hrefused (by simp [encoding, htime, hcount, htext]) (by simp [markItem, htime, hcount])
        rfl
    · exact .scalar (a := .f64 bits) (by simp [encoding, htime, hcount, htext])
        (by simp [markItem, htime, hcount]) rfl
    · exact hrefused (by simp [encoding, htime, hcount, htext]) (by simp [markItem, htime, hcount])
        rfl
  | character cls xs =>
    rcases xs with _ | ⟨text, _ | ⟨_, _⟩⟩
    · exact hrefused (by simp [encoding, htime, hcount, htext]) (by simp [markItem, htime, hcount])
        rfl
    · refine @Dispatch.str _ text (by simp [encoding, htime, hcount, htext, hobj])
        (by simp [markItem, htime, hcount]) ?_
      cases text <;> simp [RValue.isInvalidString, RString.char, htime, hcount]
    · exact hrefused (by simp [encoding, htime, hcount, htext]) (by simp [markItem, htime, hcount])
        (by cases text <;> rfl)

theorem dispatch {v : RValue} (hv : v.isPlainValue = true) : Dispatch v := by
  by_cases htime : v.inherits "POSIXct" = true
  · have hno := invalidString_of_class (Or.inl htime)
    by_cases hlen : v.length ≠ 1
    · apply @Dispatch.refused v "Timestamp must be scalar" "Mark value must be scalar" _ _ hno
      · unfold encoding
        rw [if_pos htime, if_pos hlen]
      · unfold markItem
        rw [if_pos htime, if_pos hlen]
    · apply Dispatch.scalar (a := .timestamp (RValue.milliseconds v.asReal)) _ _ hno
      · unfold encoding
        rw [if_pos htime, if_neg hlen]
      · unfold markItem
        rw [if_pos htime, if_neg hlen]
  · by_cases hcount : v.inherits "am_counter" = true
    · exact dispatch_counter htime hcount
    · exact dispatch_type htime hcount hv

/-- The encoders agree on everything but strings that are not UTF-8. -/
theorem sameStored_iff {v : RValue} (hv : v.isPlainValue = true) :
    SameStored v ↔ v.isInvalidString = false := by
  cases dispatch hv with
  | scalar hput hmark hno =>
    unfold SameStored putStored markStored
    rw [hput, hmark]
    exact ⟨fun _ => hno, fun _ => rfl⟩
  | refused hput hmark hno =>
    unfold SameStored putStored markStored
    rw [hput, hmark]
    exact ⟨fun _ => hno, fun _ => ⟨by simp, by simp⟩⟩
  | @str text hput hmark hbad =>
    cases htext : text.char with
    | none =>
      have hput' : putStored v = .error .invalidUtf8 := by
        unfold putStored
        rw [hput]
        simp only [Item.scalar?, htext, Option.map_none]
      have hmark' : markStored v = .error .abort := by
        unfold markStored
        rw [hmark, htext]
        rfl
      unfold SameStored
      rw [hput', hmark']
      refine ⟨fun hsame => absurd rfl hsame.2, fun hno => ?_⟩
      rw [hbad.mpr htext] at hno
      cases hno
    | some s =>
      have hput' : putStored v = .ok (.str s) := by
        unfold putStored
        rw [hput]
        simp only [Item.scalar?, htext, Option.map_some]
      have hmark' : markStored v = .ok (.str s) := by
        unfold markStored
        rw [hmark, htext]
        rfl
      unfold SameStored
      rw [hput', hmark']
      refine ⟨fun _ => Bool.eq_false_of_not_eq_true fun h => ?_, fun _ => rfl⟩
      rw [hbad.mp h] at htext
      cases htext

namespace Tx

variable {tx tx' : Tx A} {obj : ObjId A}

/-- A string that is not UTF-8 is put nowhere. -/
theorem putItem_invalid {text : RString} (htext : text.char = none) (sl : Slot)
    (id : Option (OpId A)) : tx.putItem obj sl (.str text) ≠ (tx', .ok id) := by
  have hprop : ∀ prop, tx.putProp obj prop (.str text) = (tx, .error .invalidUtf8) := by
    intro prop
    unfold putProp
    simp only [htext]
  have hinsert : ∀ index, tx.insertItem obj index (.str text) = (tx, .error .invalidUtf8) := by
    intro index
    unfold insertItem
    simp only [htext]
  intro heq
  unfold putItem at heq
  split at heq
  · split at heq
    · rw [hprop] at heq
      cases heq
    · cases heq
  · split at heq
    · cases heq
    · rw [hinsert] at heq
      cases heq
    · rw [hprop] at heq
      cases heq

/-- What `am_put` stores when it returns. -/
theorem amPut_stored (h : tx.Sound) {key value : RValue} (hs : tx.ops.IsSlot obj key)
    (hv : value.isPlainValue = true) (heq : tx.amPut obj key value = (tx', .ok ())) :
    ∃ a, putStored value = .ok a ∧ ∃ new, tx'.ops.find obj key = some new ∧
      OpSet.Puts (tx.ops.find obj key) a new := by
  have hstored : ∀ {item a}, encoding value = .item item → item.scalar? = some a →
      ∃ a, putStored value = .ok a ∧ ∃ new, tx'.ops.find obj key = some new ∧
        OpSet.Puts (tx.ops.find obj key) a new := by
    intro item a hitem hscalar
    have hof : scalarOf value = some a := by
      unfold scalarOf
      rw [hitem]
      exact hscalar
    obtain ⟨new, hfind, -, hputs⟩ := amGet_amPut h hs hof heq
    refine ⟨a, ?_, new, hfind, hputs⟩
    unfold putStored
    simp only [hitem, hscalar]
  cases dispatch hv with
  | scalar hput => exact hstored hput rfl
  | @str text hput =>
    cases htext : text.char with
    | some s => exact hstored hput (congrArg (Option.map ScalarValue.str) htext)
    | none =>
      obtain ⟨sl, -, id, hitem⟩ := slot_of_amPut hput heq
      exact absurd hitem (putItem_invalid htext sl id)
  | refused hput =>
    cases hsl : slot (tx.isMap obj) key false with
    | error e =>
      rw [amPut, putValue_refused hsl] at heq
      cases heq
    | ok sl =>
      rw [amPut_unsupported hsl hput] at heq
      cases heq

/-- An insertion that returns is the next operation. -/
theorem pending_doInsert {objType : ObjType} {index : ℕ} {action : OpType} {id : OpId A}
    (heq : tx.doInsert obj objType index action = (tx', .ok id)) :
    ∃ op : Op A, tx'.pending = tx.pending ++ [op] ∧ op.action = action := by
  unfold doInsert at heq
  split at heq
  · cases heq
  · cases heq
    exact ⟨_, rfl, rfl⟩

/-- A mark that returns is the next two operations. -/
theorem pending_mark {start stop : ℕ} (hlt : start < stop) {name : String} {value : ScalarValue}
    {expand : ExpandMark} (heq : tx.mark obj start stop name value expand = (tx', .ok ())) :
    ∃ begin stop' : Op A, tx'.pending = tx.pending ++ [begin, stop'] ∧
      begin.action = .markBegin expand.before name value := by
  unfold mark at heq
  split at heq
  · rw [if_neg fun h => Nat.ne_of_lt hlt h.1] at heq
    split at heq
    · cases heq
    · rename_i tx₁ id hbegin
      obtain ⟨op, hop, haction⟩ := pending_doInsert hbegin
      cases hend : tx₁.doInsert obj .text stop (.markEnd expand.after) with
      | mk tx₂ result =>
        rw [hend] at heq
        cases result with
        | error e => cases heq
        | ok id' =>
          cases heq
          obtain ⟨op', hop', -⟩ := pending_doInsert hend
          refine ⟨op, op', ?_, haction⟩
          rw [hop', hop, List.append_assoc]
          rfl
  · cases heq
  · cases heq

/-- What `am_mark_create` stores when it returns. -/
theorem amMarkCreate_stored {start stop name value expand : RValue}
    (heq : tx.amMarkCreate obj start stop name value expand = (tx', .ok ())) :
    ∃ a, markStored value = .ok a ∧ ∃ begin stop' : Op A,
      tx'.pending = tx.pending ++ [begin, stop'] ∧
        ∃ expand name, begin.action = .markBegin expand name a := by
  unfold amMarkCreate at heq
  split at heq
  · cases heq
  · cases heq
  · rename_i i j _ _
    split at heq
    · cases heq
    · rename_i hlt
      split at heq
      · split at heq
        · cases heq
        · cases heq
        · rename_i expand' item _ hitem
          unfold markCreate at heq
          split at heq
          · cases heq
          · cases heq
          · rename_i name' a _
            refine ⟨a, ?_, ?_⟩
            · unfold markStored
              rw [hitem]
            · cases hmark : tx.mark obj i j name' a expand' with
              | mk tx₁ result =>
                rw [hmark] at heq
                cases result with
                | error e => cases heq
                | ok =>
                  cases heq
                  obtain ⟨begin, stop', hpending, haction⟩ := pending_mark (by omega) hmark
                  exact ⟨begin, stop', hpending, _, _, haction⟩
      · cases heq

end Tx

/-! ## The law -/

/-- **Where the two codecs agree.** `am_put` and `am_mark_create` store a value as the same
scalar, or both refuse it, exactly when it is no string that is not UTF-8. `am_get` and
`am_marks` make the same value of a scalar exactly when it is no unsigned integer that R's
integers hold, no counter beyond them, and no string of R that is not ASCII. -/
theorem codecs_agree_iff (s : OpSet A) :
    (∀ v : RValue, v.isPlainValue = true → (SameStored v ↔ v.isInvalidString = false)) ∧
      ∀ (obj : ObjId A) (key : RValue) (v : ScalarValue), s.IsSlot obj key → key.length = 1 →
        s.find obj key = some (.scalar v) →
        (SameRead (s.amGet obj key) v ↔ readsAlike v = true) := by
  refine ⟨fun v hv => sameStored_iff hv, fun obj key v hs hlen hfind => ?_⟩
  rw [OpSet.amGet_slot hs hlen hfind]
  exact sameRead_iff s v

theorem codecs_agree_iff_seven : SameStored (.integer [] [7]) ∧
    SameRead ((Tx.peer (.int 7)).ops.amGet none (.character [] [.lit "x"])) (.int 7) := by
  obtain ⟨hstored, hread⟩ := codecs_agree_iff (Tx.peer (.int 7)).ops
  exact ⟨(hstored _ (by decide)).mpr rfl,
    (hread none (.character [] [.lit "x"]) (.int 7) (.key rfl) rfl (by decide +kernel)).mpr rfl⟩

/-- The unsigned integer 5 is read as a double and as an integer, the counter 2147483648
with its class and without, and `é` without a mark and marked as UTF-8. In Latin-1, it is
refused by `am_put` and ends the process in `am_mark_create`. -/
theorem amMarks_uint :
    ¬ SameRead ((Tx.peer (.uint 5)).ops.amGet none (.character [] [.lit "x"])) (.uint 5) ∧
    ¬ SameRead ((Tx.peer (.counter 2147483648)).ops.amGet none (.character [] [.lit "x"]))
      (.counter 2147483648) ∧
    ¬ SameRead ((Tx.peer (.str "é")).ops.amGet none (.character [] [.lit "x"])) (.str "é") ∧
    ¬ SameStored (.character [] [.invalid [0xE9]]) := by
  have hslot : ∀ v, (Tx.peer v).ops.IsSlot none (.character [] [.lit "x"]) := fun _ => .key rfl
  refine ⟨?_, ?_, ?_, ?_⟩
  · rw [OpSet.amGet_slot (v := .scalar (.uint 5)) (hslot _) rfl (by decide +kernel), sameRead_iff]
    decide
  · rw [OpSet.amGet_slot (v := .scalar (.counter 2147483648)) (hslot _) rfl (by decide +kernel),
      sameRead_iff]
    decide
  · rw [OpSet.amGet_slot (v := .scalar (.str "é")) (hslot _) rfl (by decide +kernel), sameRead_iff]
    decide
  · rw [sameStored_iff (by decide)]
    decide

end AutomergeR
