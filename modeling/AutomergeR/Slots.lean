import AutomergeR.ListOps
import AutomergeR.PutPath
import AutomergeR.StoredTree

/-! # A slot after a put

A slot is a key of a map or a position of a list. Both are read through `find`, and a
scalar that has been put at a slot is found there, or one that the library takes for the
same.
-/

namespace AutomergeR

variable {A : Type} [LinearOrder A]

namespace OpSet

/-- A key of a map or a position of a list. -/
inductive IsSlot (s : OpSet A) (obj : ObjId A) (key : RValue) : Prop where
  | key (ht : s.objectType obj = some .map)
  | pos (ht : s.objectType obj = some .list) (hk : key.isNumeric = true)

/-- Reading a key of a map. -/
theorem find_visible {s : OpSet A} {obj : ObjId A} (ht : s.objectType obj = some .map)
    {k : RString} {prop : String} (hk : k.char = some prop) {cls : List String} :
    s.find obj (.character cls [k]) =
      ((visibleAtKey (s.rows obj) prop).getLast?).map Row.value := by
  unfold find
  dsimp only
  rw [hk, Option.bind_some, mapGet_of_visible ht]

/-- A place is a position the library accepts. -/
theorem adjust_place {s : OpSet A} {obj : ObjId A} (ht : s.objectType obj = some .list)
    {p : Place A} (hp : p.rows = s.rows obj) (hl : TopLast (s.rows obj)) :
    adjust (some p.index) false (s.length obj) = .ok (p.index, false) := by
  have hlen : p.index < s.length obj := by
    have hlt := p.index_lt (hp ▸ hl)
    unfold OpSet.length
    rw [ht]
    rwa [hp] at hlt
  have hne : s.length obj ≠ 0 := Nat.ne_zero_of_lt hlen
  have hle : ¬ s.length obj - 1 < p.index := by omega
  unfold adjust
  simp only [Bool.false_or, decide_eq_false hne, Bool.false_eq_true, if_false, if_neg hle]

/-- Reading a position that the index column leads from. -/
theorem find_place {s : OpSet A} {obj : ObjId A} (ht : s.objectType obj = some .list)
    {p : Place A} (hp : p.rows = s.rows obj) (hl : TopLast (s.rows obj)) {key : RValue}
    (hk : key.isNumeric = true) (hpos : ¬ key.asInteger < 1)
    (hi : p.index = (key.asInteger - 1).toNat) : s.find obj key = some p.row.value := by
  have hlist : s.getList obj p.index = .ok (some p.row.value) := by
    unfold getList
    simp only [adjust_place ht hp hl, ht]
    unfold listGet seekOpsByIndex
    simp only [ht]
    rw [if_neg (by decide), ← hp, p.seek, p.getLast?]
    rfl
  cases key with
  | integer | double =>
    unfold find
    dsimp only
    rw [if_neg hpos, ← hi, hlist]
  | null | logical | character | raw | list | namedList | other => cases hk

omit [LinearOrder A] in
/-- A position that the library accepts is the one it was given. -/
theorem adjust_pos {n len index : ℕ} {insert insert' : Bool}
    (hadjust : adjust (some n) insert len = .ok (index, insert')) : index = n := by
  unfold adjust at hadjust
  dsimp only at hadjust
  generalize hlast : (if (insert || decide (len = 0)) = true then len else len - 1) = last
    at hadjust
  by_cases hlt : last < n
  · rw [if_pos hlt] at hadjust
    cases hadjust
  · rw [if_neg hlt] at hadjust
    cases hadjust
    rfl

/-- What is found at a position is the row the index column names. -/
theorem place_of_find {s : OpSet A} {obj : ObjId A} (ht : s.objectType obj = some .list)
    (hl : TopLast (s.rows obj)) {key : RValue} (hk : key.isNumeric = true) {v : Value A}
    (hfind : s.find obj key = some v) : ¬ key.asInteger < 1 ∧
      ∃ p : Place A, p.rows = s.rows obj ∧ p.index = (key.asInteger - 1).toNat ∧
        v = p.row.value := by
  have hlist : ∀ {n}, s.getList obj n = .ok (some v) →
      ∃ p : Place A, p.rows = s.rows obj ∧ p.index = n ∧ v = p.row.value := by
    intro n hget
    unfold getList at hget
    split at hget
    · cases hget
    · rename_i index insert hadjust
      obtain rfl := adjust_pos hadjust
      rw [ht] at hget
      unfold listGet seekOpsByIndex at hget
      rw [ht] at hget
      dsimp only at hget
      rw [if_neg (by decide)] at hget
      cases hpos : nthPos (·.top) index (s.rows obj) with
      | none =>
        unfold seekListOpsByIndex at hget
        rw [hpos] at hget
        cases hget
      | some pos =>
        obtain ⟨p, hp, rfl, -, -⟩ := hl.place hpos
        rw [← hp, p.seek, p.getLast?] at hget
        cases hget
        exact ⟨p, hp, rfl, rfl⟩
  cases key with
  | integer | double =>
    unfold find at hfind
    dsimp only at hfind
    split at hfind
    · cases hfind
    · rename_i hpos
      refine ⟨hpos, hlist ?_⟩
      split at hfind
      · rename_i heq
        rw [heq, hfind]
      · cases hfind
  | null | logical | character | raw | list | namedList | other => cases hk

/-- What a put of `v` leaves where `old` was: `v`, or a value that was there and equals
it. -/
inductive Puts (old : Option (Value A)) (v : ScalarValue) : Value A → Prop where
  | new : Puts old v (.scalar v)
  | kept {w : ScalarValue} (hold : old = some (.scalar w)) (heq : w.eq v = true) :
    Puts old v (.scalar w)

end OpSet

/-- The scalar an item puts, unless it makes an object or is refused. -/
def Item.scalar? : Item → Option ScalarValue
  | .scalar v => some v
  | .str text => text.char.map .str
  | .object _ => none

/-- The scalar `am_put_value` makes of a value. -/
def scalarOf (value : RValue) : Option ScalarValue :=
  match encoding value with
  | .item item => item.scalar?
  | _ => none

namespace Tx

variable {tx tx' : Tx A} {obj : ObjId A}

theorem putProp_scalar {item : Item} {v : ScalarValue} (hv : item.scalar? = some v)
    (tx : Tx A) (obj : ObjId A) (prop : ObjProp) :
    tx.putProp obj prop item = lift (tx.put obj prop v) := by
  cases item with
  | scalar w =>
    cases hv
    rfl
  | str text =>
    obtain ⟨s, hs, rfl⟩ := Option.map_eq_some_iff.mp hv
    unfold putProp
    simp only [hs]
  | object => cases hv

theorem insertItem_scalar {item : Item} {v : ScalarValue} (hv : item.scalar? = some v)
    (tx : Tx A) (obj : ObjId A) (index : ℕ) :
    tx.insertItem obj index item = lift (tx.insert obj index (.put v)) := by
  cases item with
  | scalar w =>
    cases hv
    rfl
  | str text =>
    obtain ⟨s, hs, rfl⟩ := Option.map_eq_some_iff.mp hv
    unfold insertItem
    simp only [hs]
  | object => cases hv

/-- A value that becomes an item is put as that item. -/
theorem putValue_of_item {key value : RValue} {item : Item} (hitem : encoding value = .item item)
    {isMap forceInsert : Bool} {sl : Slot} (hsl : slot isMap key forceInsert = .ok sl) :
    tx.putValue obj key isMap forceInsert value = ((tx.putItem obj sl item).1,
      (tx.putItem obj sl item).2.map fun _ => ()) := by
  have hbegin : tx.beginPut obj key isMap value forceInsert =
      ((tx.putItem obj sl item).1, (tx.putItem obj sl item).2.map fun _ => none) := by
    unfold beginPut
    simp only [hsl, hitem]
  cases value with
  | list | namedList =>
    unfold putValue
    rw [hbegin]
    cases (tx.putItem obj sl item).2 <;> rfl
  | null | logical | integer | double | character | raw | other =>
    unfold putValue
    rw [hbegin]
    cases (tx.putItem obj sl item).2 <;> rfl

theorem amPut_item {key value : RValue} {item : Item} (hitem : encoding value = .item item)
    {sl : Slot} (hsl : slot (tx.isMap obj) key false = .ok sl) :
    tx.amPut obj key value = ((tx.putItem obj sl item).1,
      (tx.putItem obj sl item).2.map fun _ => ()) := putValue_of_item hitem hsl

theorem putValue_refused {key value : RValue} {isMap forceInsert : Bool} {e : RError}
    (hsl : slot isMap key forceInsert = .error e) :
    tx.putValue obj key isMap forceInsert value = (tx, .error e) := by
  apply putValue_error
  unfold beginPut
  simp only [hsl]

/-- A value that has no encoding leaves the document alone. -/
theorem amPut_unsupported {key value : RValue} {sl : Slot}
    (hsl : slot (tx.isMap obj) key false = .ok sl) {message : String}
    (hv : encoding value = .unsupported message) :
    tx.amPut obj key value = (tx, .error (.stop message)) := by
  apply putValue_error
  unfold beginPut
  simp only [hsl, hv]

/-! ## What is found after a put -/

omit [LinearOrder A] in
/-- What a call of the library did, from the reply of the call of the package. -/
theorem ok_of_map {α : Type} {reply : Reply A RError α}
    (heq : (reply.1, reply.2.map fun _ => ()) = (tx', .ok ())) : ∃ a, reply = (tx', .ok a) := by
  obtain ⟨tx₁, result⟩ := reply
  cases result with
  | error e => cases heq
  | ok a =>
    cases heq
    exact ⟨a, rfl⟩

theorem item_of_scalarOf {value : RValue} {v : ScalarValue} (hv : scalarOf value = some v) :
    ∃ item, encoding value = .item item ∧ item.scalar? = some v := by
  unfold scalarOf at hv
  cases hitem : encoding value with
  | item item =>
    rw [hitem] at hv
    exact ⟨item, rfl, hv⟩
  | text | object | unsupported =>
    rw [hitem] at hv
    cases hv

theorem action_of_scalar {item : Item} {v : ScalarValue} (hv : item.scalar? = some v) :
    item.action = .put v := by
  cases item with
  | scalar w =>
    cases hv
    rfl
  | str text =>
    obtain ⟨s, hs, rfl⟩ := Option.map_eq_some_iff.mp hv
    unfold Item.action
    simp [hs]
  | object => cases hv

/-- A call that returns has found its slot. -/
theorem slot_of_amPut {key value : RValue} {item : Item} (hitem : encoding value = .item item)
    (heq : tx.amPut obj key value = (tx', .ok ())) :
    ∃ sl, slot (tx.isMap obj) key false = .ok sl ∧ ∃ id, tx.putItem obj sl item = (tx', .ok id) := by
  cases hsl : slot (tx.isMap obj) key false with
  | error e =>
    have herr : tx.amPut obj key value = (tx, .error e) := putValue_refused hsl
    rw [herr] at heq
    cases heq
  | ok sl =>
    rw [amPut_item hitem hsl] at heq
    exact ⟨sl, rfl, ok_of_map heq⟩

/-- A scalar put at a key of a map. -/
theorem find_amPut_key (h : tx.Fresh) (ht : tx.ops.objectType obj = some .map)
    {key value : RValue} {v : ScalarValue} (hv : scalarOf value = some v)
    (heq : tx.amPut obj key value = (tx', .ok ())) :
    ∃ new, tx'.ops.find obj key = some new ∧ OpSet.Puts (tx.ops.find obj key) v new := by
  obtain ⟨item, hitem, hscalar⟩ := item_of_scalarOf hv
  obtain ⟨sl, hsl, id, hput⟩ := slot_of_amPut hitem heq
  rw [isMap_of_map ht] at hsl
  obtain ⟨cls, name, rfl, rfl⟩ : ∃ cls name, key = .character cls [name] ∧ sl = .key name := by
    unfold slot at hsl
    rw [if_pos rfl] at hsl
    split at hsl
    · cases hsl
      exact ⟨_, _, rfl, rfl⟩
    · cases hsl
  have hw := writes_putItem h obj (.key name) item
  rw [hput] at hw
  have ht' : tx'.ops.objectType obj = some .map := (hw.objectType obj (h.made ht)).trans ht
  obtain ⟨prop, hprop, -, -, r, hvis, hlead⟩ := putItem_key_set h hput
  rw [action_of_scalar hscalar] at hlead
  refine ⟨r.value, ?_, ?_⟩
  · rw [OpSet.find_visible ht' hprop, hvis]
    rfl
  · rw [OpSet.find_visible ht hprop]
    cases hlead with
    | new _ ha hs _ =>
      rw [Row.value_put ha hs]
      exact .new
    | kept hr hholds =>
      rw [hholds.value]
      apply OpSet.Puts.kept
      · rw [hr, Option.map_some, hholds.value]
      · exact hholds.2.2

/-- A position of a list that a call accepts. -/
theorem slot_pos {key : RValue} (hk : key.isNumeric = true) {sl : Slot}
    (hsl : slot false key false = .ok sl) :
    ¬ key.asInteger < 1 ∧ key.length = 1 ∧ sl = .pos (some (key.asInteger - 1).toNat) false := by
  cases key with
  | integer | double =>
    unfold slot at hsl
    dsimp only at hsl
    rw [if_neg Bool.false_ne_true] at hsl
    split at hsl
    · cases hsl
    · rename_i hlen
      split at hsl
      · cases hsl
      · rename_i hpos
        cases hsl
        exact ⟨hpos, not_not.mp hlen, rfl⟩
  | null | logical | character | raw | list | namedList | other => cases hk

theorem isMap_of_list (ht : tx.ops.objectType obj = some .list) : tx.isMap obj = false := by
  cases obj with
  | none => cases ht
  | some id =>
    unfold isMap
    rw [ht]

/-- What a scalar put at a position of a list does: it is inserted when the list is empty,
else it is put at the position. -/
theorem putItem_pos {n : ℕ} {item : Item} {v : ScalarValue} (hv : item.scalar? = some v)
    (ht : tx.ops.objectType obj = some .list) {id : Option (OpId A)}
    (heq : tx.putItem obj (.pos (some n) false) item = (tx', .ok id)) :
    (tx.ops.length obj = 0 ∧ n = 0 ∧ ∃ id', tx.doInsert obj .list 0 (.put v) = (tx', .ok id')) ∨
      ∃ id', tx.localListOp obj .list n (.put v) = (tx', .ok id') := by
  by_cases hlen : tx.ops.length obj = 0
  · have hadjust : ∀ {reply}, adjust (some n) false (tx.ops.length obj) = .ok reply →
        reply = (0, true) ∧ n = 0 := by
      intro reply hreply
      unfold adjust at hreply
      simp only [hlen, decide_true, Bool.or_true, if_true] at hreply
      split at hreply
      · cases hreply
      · rename_i hn
        cases hreply
        obtain rfl : n = 0 := by omega
        exact ⟨rfl, rfl⟩
    unfold putItem at heq
    dsimp only at heq
    split at heq
    · cases heq
    · rename_i index hok
      obtain ⟨hpair, rfl⟩ := hadjust hok
      cases hpair
      rw [insertItem_scalar hv] at heq
      have hins : tx.insert obj 0 (.put v) = tx.doInsert obj .list 0 (.put v) := by
        unfold insert objMeta
        rw [ht]
        rfl
      rw [hins] at heq
      left
      refine ⟨hlen, rfl, ?_⟩
      generalize tx.doInsert obj .list 0 (.put v) = reply at heq
      obtain ⟨tx₁, result⟩ := reply
      cases result with
      | error e => cases heq
      | ok id' =>
        cases heq
        exact ⟨_, rfl⟩
    · rename_i index hok
      obtain ⟨hpair, -⟩ := hadjust hok
      cases hpair
  · have hadjust : ∀ {reply}, adjust (some n) false (tx.ops.length obj) = .ok reply →
        reply = (n, false) := by
      intro reply hreply
      unfold adjust at hreply
      simp only [decide_eq_false hlen, Bool.or_self, Bool.false_eq_true, if_false] at hreply
      split at hreply
      · cases hreply
      · cases hreply
        rfl
    unfold putItem at heq
    dsimp only at heq
    split at heq
    · cases heq
    · rename_i index hok
      cases hadjust hok
    · rename_i index hok
      cases hadjust hok
      rw [putProp_scalar hv] at heq
      have hput : tx.put obj (.seq n) v = tx.localListOp obj .list n (.put v) := by
        unfold put objMeta
        rw [ht]
        rfl
      rw [hput] at heq
      right
      generalize tx.localListOp obj .list n (.put v) = reply at heq
      obtain ⟨tx₁, result⟩ := reply
      cases result with
      | error e => cases heq
      | ok id' =>
        cases heq
        exact ⟨_, rfl⟩

/-- A put at a position that returns has found an element there. -/
theorem place_of_localListOp {n : ℕ} {action : OpType} {id : Option (OpId A)}
    (hl : ListRows (tx.ops.rows obj)) (heq : tx.localListOp obj .list n action = (tx', .ok id)) :
    ∃ p : OpSet.Place A, p.rows = tx.ops.rows obj ∧ p.index = n := by
  cases hpos : OpSet.nthPos (·.top) n (tx.ops.rows obj) with
  | none =>
    rw [localListOp_none action hpos] at heq
    cases heq
  | some pos =>
    obtain ⟨p, hp, hi, -, -⟩ := hl.topLast.place hpos
    exact ⟨p, hp, hi⟩

/-- A scalar put at a position of a list. -/
theorem find_amPut_pos (h : tx.Fresh) (ht : tx.ops.objectType obj = some .list)
    (hl : ListRows (tx.ops.rows obj)) {key value : RValue} (hk : key.isNumeric = true)
    {v : ScalarValue} (hv : scalarOf value = some v)
    (heq : tx.amPut obj key value = (tx', .ok ())) :
    ListRows (tx'.ops.rows obj) ∧
      ∃ new, tx'.ops.find obj key = some new ∧ OpSet.Puts (tx.ops.find obj key) v new := by
  obtain ⟨item, hitem, hscalar⟩ := item_of_scalarOf hv
  obtain ⟨sl, hsl, id, hput⟩ := slot_of_amPut hitem heq
  rw [isMap_of_list ht] at hsl
  obtain ⟨hpos, -, rfl⟩ := slot_pos hk hsl
  have hw := writes_putItem h obj (.pos (some (key.asInteger - 1).toNat) false) item
  rw [hput] at hw
  have ht' : tx'.ops.objectType obj = some .list := (hw.objectType obj (h.made ht)).trans ht
  rcases putItem_pos hscalar ht hput with ⟨hlen, hn, id', hins⟩ | ⟨id', hlocal⟩
  · -- the list was empty
    obtain ⟨hl', pos, elem, hrows⟩ := listRows_doInsert hl rfl hins
    have hhidden : ∀ r ∈ tx.ops.rows obj, r.top = false := by
      have hzero : OpSet.countElems (tx.ops.rows obj) false = 0 := by
        unfold OpSet.length at hlen
        rwa [ht] at hlen
      intro r hr
      apply Bool.eq_false_of_not_eq_true
      intro htop
      have hcount := (OpSet.countP_top_le hl.topLast).1
      rw [hzero, Nat.le_zero, List.countP_eq_zero] at hcount
      exact hcount r hr htop
    let new := row tx.nextId ⟨obj, .seq elem, true, .put v, []⟩
    have hnth : OpSet.nthPos (·.top) 0 (tx'.ops.rows obj) =
        some ((tx.ops.rows obj).take pos).length := by
      have hcount : ((tx.ops.rows obj).take pos).countP (·.top) = 0 :=
        OpSet.countP_top_eq_zero fun r hr => hhidden r (List.mem_of_mem_take hr)
      rw [hrows, ← hcount]
      exact OpSet.nthPos_countP _ rfl _
    obtain ⟨p, hp, hi, -, -⟩ := hl'.topLast.place hnth
    have hrow : p.row = new := by
      have hmem : p.row ∈ tx'.ops.rows obj := by
        rw [← hp]
        unfold OpSet.Place.rows
        exact List.mem_append_left _ (List.mem_append_right _ p.row_mem)
      rw [hrows] at hmem
      have htop := p.top
      rcases List.mem_append.mp hmem with hmem | hmem
      · rw [hhidden _ (List.mem_of_mem_take hmem)] at htop
        cases htop
      · rcases List.mem_cons.mp hmem with hrow | hmem
        · exact hrow
        · rw [hhidden _ (List.mem_of_mem_drop hmem)] at htop
          cases htop
    refine ⟨hl', p.row.value, OpSet.find_place ht' hp hl'.topLast hk hpos (hi.trans hn.symm), ?_⟩
    rw [hrow, Row.value_put (show new.action = .put v from rfl) rfl]
    exact .new
  · obtain ⟨p, hp, hi⟩ := place_of_localListOp hl hlocal
    rw [← hi] at hlocal
    obtain ⟨tx₁, id₁, hset, hkeep, p', hp', hpre, -, hrow⟩ := localListOp_set h p hp
      (show (OpType.put v).isSetOrMake = true from rfl)
    have hi' : p'.index = p.index := OpSet.Place.index_of_pre hpre
    rw [hlocal] at hset
    cases hset
    have hl' := hkeep hl
    have hold := OpSet.find_place ht hp hl.topLast hk hpos hi
    refine ⟨hl', p'.row.value, OpSet.find_place ht' hp' hl'.topLast hk hpos (hi'.trans hi), ?_⟩
    rw [hold]
    rcases hrow with ⟨ha, hs, -⟩ | ⟨w, hw', hholds, hrow⟩
    · rw [Row.value_put ha hs]
      exact .new
    · cases hw'
      rw [hrow, hholds.value]
      exact .kept rfl hholds.2.2

/-- A transaction whose ids are in order, and the rows of its lists. -/
structure Sound (tx : Tx A) : Prop extends Fresh tx where
  lists : ∀ obj, tx.ops.objectType obj = some .list → ListRows (tx.ops.rows obj)

theorem sound_new (actor : A) : (Tx.new actor).Sound where
  toFresh := fresh_new actor
  lists _ _ := ListRows.nil

end Tx

/-- In a map nothing is found at what is no string. -/
theorem OpSet.find_key {s : OpSet A} {obj : ObjId A} (ht : s.objectType obj = some .map)
    {key : RValue} {v : Value A} (hfind : s.find obj key = some v) :
    ∃ cls k, key = .character cls [k] ∧ k.char.isSome = true := by
  have hlist : ∀ n, ∃ e, s.getList obj n = .error e := by
    intro n
    unfold getList
    cases adjust (some n) false (s.length obj) with
    | error e => exact ⟨e, rfl⟩
    | ok index =>
      refine ⟨.op .invalidOp, ?_⟩
      dsimp only
      rw [ht]
  unfold find at hfind
  split at hfind
  · rename_i cls k
    obtain ⟨prop, hprop, -⟩ := Option.bind_eq_some_iff.mp hfind
    exact ⟨cls, k, rfl, by rw [hprop]; rfl⟩
  · split at hfind
    · cases hfind
    · obtain ⟨e, he⟩ := hlist (key.asInteger - 1).toNat
      rw [he] at hfind
      cases hfind

/-- What is found at a slot is what `am_get` reads. -/
theorem OpSet.amGet_slot {s : OpSet A} {obj : ObjId A} {key : RValue} (hs : s.IsSlot obj key)
    (hlen : key.length = 1) {v : Value A} (hfind : s.find obj key = some v) :
    s.amGet obj key = s.itemToR v := by
  have hpath : key.isPathKey = true ∧ s.refuses obj key = false := by
    cases hs with
    | key ht =>
      obtain ⟨cls, k, rfl, hk⟩ := find_key ht hfind
      refine ⟨rfl, ?_⟩
      unfold refuses
      dsimp only
      rw [ht, Option.isNone_eq_false_iff.mpr hk]
      rfl
    | pos ht hk =>
      cases key with
      | integer cls xs | double cls xs =>
        obtain ⟨x, rfl⟩ := List.length_eq_one_iff.mp hlen
        exact ⟨rfl, rfl⟩
      | null | logical | character | raw | list | namedList | other => cases hk
  rw [amGet_find s obj hpath.1 hpath.2, hfind]

namespace Tx

variable {tx tx' : Tx A} {obj : ObjId A}

/-- The type of an object a put writes to stays. -/
theorem isSlot_amPut (h : tx.Fresh) {key : RValue} (hs : tx.ops.IsSlot obj key) (value : RValue) :
    (tx.amPut obj key value).1.ops.IsSlot obj key := by
  have hw := writes_putValue value h obj key (tx.isMap obj) false
  cases hs with
  | key ht => exact .key ((hw.objectType obj (h.made ht)).trans ht)
  | pos ht hk => exact .pos ((hw.objectType obj (h.made ht)).trans ht) hk

/-- A key or position that a put has accepted is a single one. -/
theorem length_of_amPut {key value : RValue} {v : ScalarValue} (hs : tx.ops.IsSlot obj key)
    (hv : scalarOf value = some v) (heq : tx.amPut obj key value = (tx', .ok ())) :
    key.length = 1 := by
  obtain ⟨item, hitem, -⟩ := item_of_scalarOf hv
  obtain ⟨sl, hsl, -⟩ := slot_of_amPut hitem heq
  cases hs with
  | key ht =>
    rw [isMap_of_map ht] at hsl
    unfold slot at hsl
    rw [if_pos rfl] at hsl
    split at hsl
    · rfl
    · cases hsl
  | pos ht hk =>
    rw [isMap_of_list ht] at hsl
    exact (slot_pos hk hsl).2.1

/-- **What `am_get` reads after a put.** A scalar that `am_put` has stored at a slot is
read back, or one that was there and that the library takes for the same. -/
theorem amGet_amPut (h : tx.Sound) {key value : RValue} (hs : tx.ops.IsSlot obj key)
    {v : ScalarValue} (hv : scalarOf value = some v)
    (heq : tx.amPut obj key value = (tx', .ok ())) :
    ∃ new, tx'.ops.find obj key = some new ∧ tx'.ops.amGet obj key = tx'.ops.itemToR new ∧
      OpSet.Puts (tx.ops.find obj key) v new := by
  have hlen := length_of_amPut hs hv heq
  have hs' : tx'.ops.IsSlot obj key := by
    have hslot := isSlot_amPut h.toFresh hs value
    rwa [heq] at hslot
  cases hs with
  | key ht =>
    obtain ⟨new, hfind, hputs⟩ := find_amPut_key h.toFresh ht hv heq
    exact ⟨new, hfind, OpSet.amGet_slot hs' hlen hfind, hputs⟩
  | pos ht hk =>
    obtain ⟨-, new, hfind, hputs⟩ := find_amPut_pos h.toFresh ht (h.lists obj ht) hk hv heq
    exact ⟨new, hfind, OpSet.amGet_slot hs' hlen hfind, hputs⟩

/-- A slot where something is found is accepted by a put. -/
theorem slot_of_find {key : RValue} (hs : tx.ops.IsSlot obj key) (hlen : key.length = 1)
    {v : Value A} (hfind : tx.ops.find obj key = some v) (hl : tx.Sound) :
    ∃ sl, slot (tx.isMap obj) key false = .ok sl := by
  cases hs with
  | key ht =>
    obtain ⟨cls, k, rfl, -⟩ := OpSet.find_key ht hfind
    rw [isMap_of_map ht]
    exact ⟨.key k, rfl⟩
  | pos ht hk =>
    obtain ⟨hpos, -⟩ := OpSet.place_of_find ht (hl.lists obj ht).topLast hk hfind
    rw [isMap_of_list ht]
    refine ⟨.pos (some (key.asInteger - 1).toNat) false, ?_⟩
    cases key with
    | integer | double =>
      unfold slot
      dsimp only
      rw [if_neg Bool.false_ne_true, if_neg (not_not.mpr hlen), if_neg hpos]
    | null | logical | character | raw | list | namedList | other => cases hk

/-- There, a put of a scalar returns. -/
theorem amPut_returns (h : tx.Sound) {key value : RValue} (hs : tx.ops.IsSlot obj key)
    (hlen : key.length = 1) {old : Value A} (hfind : tx.ops.find obj key = some old)
    {v : ScalarValue} (hv : scalarOf value = some v) :
    ∃ tx', tx.amPut obj key value = (tx', .ok ()) := by
  obtain ⟨item, hitem, hscalar⟩ := item_of_scalarOf hv
  obtain ⟨sl, hsl⟩ := slot_of_find hs hlen hfind h
  rw [amPut_item hitem hsl]
  cases hs with
  | key ht =>
    obtain ⟨cls, k, rfl, hk⟩ := OpSet.find_key ht hfind
    obtain ⟨prop, hprop⟩ := Option.isSome_iff_exists.mp hk
    rw [isMap_of_map ht] at hsl
    cases hsl
    obtain ⟨tx', id, hlocal, -⟩ := localMapOp_set h.toFresh obj prop
      (show (OpType.put v).isSetOrMake = true from rfl)
    have hput : tx.put obj (.map prop) v = (tx', .ok id) := by
      unfold put objMeta
      rw [ht]
      exact hlocal
    refine ⟨tx', ?_⟩
    unfold putItem
    simp only [hprop]
    rw [putProp_scalar hscalar, hput]
    rfl
  | pos ht hk =>
    have hl := (h.lists obj ht).topLast
    obtain ⟨hpos, p, hp, hi, -⟩ := OpSet.place_of_find ht hl hk hfind
    rw [isMap_of_list ht] at hsl
    obtain ⟨-, -, rfl⟩ := slot_pos hk hsl
    obtain ⟨tx', id, hlocal, -⟩ := localListOp_set h.toFresh p hp
      (show (OpType.put v).isSetOrMake = true from rfl)
    have hput : tx.put obj (.seq p.index) v = (tx', .ok id) := by
      unfold put objMeta
      rw [ht]
      exact hlocal
    refine ⟨tx', ?_⟩
    unfold putItem
    simp only [← hi, OpSet.adjust_place ht hp hl]
    rw [putProp_scalar hscalar, hput]
    rfl

/-- A new document in which a peer has stored `v` at `x`. -/
def peer (v : ScalarValue) : Tx ℕ := ((Tx.new 1).put none (.map "x") v).1

end Tx

end AutomergeR
