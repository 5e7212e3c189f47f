import AutomergeR.MapRows
import AutomergeR.Populate

/-! # What a stored value shows

`RValue.content` is the tree a value becomes in a document, and `Shows` says that a
document shows a tree at a value. A value that `am_put` or `am_insert` has stored shows
its content (`shows_putValue`): a list or a map is filled by appending to a list that has
only been appended to, and by setting keys of a new map.
-/

namespace AutomergeR

variable {A : Type} [LinearOrder A]

/-! ## Trees -/

/-- The visible content of a value. The keys of a map are in the order in which they were
first set. -/
inductive Tree where
  | scalar (v : ScalarValue)
  | text (s : String)
  | list (ts : List Tree)
  | map (entries : List (String × Tree))

namespace Tree

/-- A put of an equal scalar changes nothing. -/
def overwrite (old new : Tree) : Tree :=
  match old, new with
  | .scalar w, .scalar v => if w.eq v then old else new
  | _, _ => new

/-- Set a key. -/
def putEntry : List (String × Tree) → String → Tree → List (String × Tree)
  | [], k, t => [(k, t)]
  | (k', t') :: entries, k, t =>
    if k' = k then (k', t'.overwrite t) :: entries else (k', t') :: putEntry entries k t

end Tree

/-- The tree of an item or of a text. -/
def Encoding.leaf : Encoding → Tree
  | .item (.scalar v) => .scalar v
  | .item (.str s) => .scalar (.str (s.char.getD ""))
  | .item (.object .text) => .text ""
  | .item (.object .list) => .list []
  | .item (.object _) => .map []
  | .text initial => .text (initial.char.getD "")
  | .object _ => .list []
  | .unsupported _ => .scalar .null

mutual

/-- What a value that can be stored becomes. -/
def RValue.content : RValue → Tree
  | .list cls xs =>
    match encoding (.list cls xs) with
    | .object .list => .list (contentList xs)
    | .object _ => .map []
    | e => e.leaf
  | .namedList cls xs =>
    match encoding (.namedList cls xs) with
    | .object .list => .list []
    | .object _ => .map (contentMap [] xs)
    | e => e.leaf
  | v => (encoding v).leaf

def contentList : List RValue → List Tree
  | [] => []
  | x :: xs => x.content :: contentList xs

/-- A later element of the same name takes the place of an earlier one. -/
def contentMap (entries : List (String × Tree)) : List (RString × RValue) → List (String × Tree)
  | [] => entries
  | (name, x) :: xs => contentMap (Tree.putEntry entries (name.char.getD "") x.content) xs

end

/-! ## Showing a tree -/

namespace OpSet

/-- A map with these keys, in any order. -/
structure MapShape (s : OpSet A) (obj : ObjId A) (keys : List String) : Prop where
  objectType : s.objectType obj = some .map
  get : ∀ prop, (s.mapGet obj prop).isSome = true ↔ prop ∈ keys
  sorted : (s.keys obj).Pairwise (· < ·)
  perm : (s.keys obj).Perm keys
  length : s.length obj = keys.length

mutual

/-- The document shows the tree at the value, through objects of `own`. -/
def Shows (s : OpSet A) (own : OpId A → Prop) (v : Value A) : Tree → Prop
  | .scalar w => v = .scalar w
  | .text str => ∃ id, v = .object .text id ∧ own id ∧ s.objectType (some id) = some .text ∧
      s.text (some id) = str
  | .list ts => ∃ id, v = .object .list id ∧ own id ∧ s.objectType (some id) = some .list ∧
      s.length (some id) = ts.length ∧ ShowsList s own id 0 ts
  | .map entries => ∃ id, v = .object .map id ∧ own id ∧
      MapShape s (some id) (entries.map Prod.fst) ∧ ShowsMap s own (some id) entries

/-- The elements of the list from position `i` on. -/
def ShowsList (s : OpSet A) (own : OpId A → Prop) (id : OpId A) (i : ℕ) : List Tree → Prop
  | [] => True
  | t :: ts => (∃ v, s.listGet (some id) i = some v ∧ Shows s own v t) ∧ ShowsList s own id (i + 1) ts

def ShowsMap (s : OpSet A) (own : OpId A → Prop) (obj : ObjId A) : List (String × Tree) → Prop
  | [] => True
  | (k, t) :: entries =>
    (∃ v, s.mapGet obj k = some v ∧ Shows s own v t) ∧ ShowsMap s own obj entries

end

/-- The two documents have the same rows and type for an object. -/
def SameObject (s s' : OpSet A) (obj : ObjId A) : Prop :=
  s'.rows obj = s.rows obj ∧ s'.objectType obj = s.objectType obj

namespace SameObject

variable {s s' : OpSet A} {obj : ObjId A}

theorem mapGet (h : SameObject s s' obj) (prop : String) : s'.mapGet obj prop = s.mapGet obj prop := by
  unfold OpSet.mapGet
  rw [h.1, h.2]

theorem listGet (h : SameObject s s' obj) (i : ℕ) : s'.listGet obj i = s.listGet obj i := by
  unfold OpSet.listGet
  rw [h.1, h.2]

theorem length (h : SameObject s s' obj) : s'.length obj = s.length obj := by
  unfold OpSet.length
  rw [h.1, h.2]

theorem text (h : SameObject s s' obj) : s'.text obj = s.text obj := by
  unfold OpSet.text
  rw [h.1]

theorem mapShape (h : SameObject s s' obj) {keys : List String} (hs : MapShape s obj keys) :
    MapShape s' obj keys := by
  have hkeys : s'.keys obj = s.keys obj := by
    unfold OpSet.keys
    rw [h.1]
  refine ⟨h.2.trans hs.objectType, fun prop => ?_, ?_, ?_, h.length.trans hs.length⟩
  · rw [h.mapGet]
    exact hs.get prop
  · rw [hkeys]
    exact hs.sorted
  · rw [hkeys]
    exact hs.perm

end SameObject

mutual

/-- What a document shows stays while the objects it is shown through do. -/
theorem Shows.frame {s s' : OpSet A} {own own' : OpId A → Prop}
    (hsame : ∀ id, own id → own' id ∧ SameObject s s' (some id)) :
    ∀ {v : Value A} (t : Tree), Shows s own v t → Shows s' own' v t
  | v, .scalar w, h => h
  | v, .text str, ⟨id, hv, ho, ht, hs⟩ => by
    obtain ⟨ho', hsame⟩ := hsame id ho
    exact ⟨id, hv, ho', hsame.2.trans ht, hsame.text.trans hs⟩
  | v, .list ts, ⟨id, hv, ho, ht, hl, hts⟩ => by
    obtain ⟨ho', hid⟩ := hsame id ho
    exact ⟨id, hv, ho', hid.2.trans ht, hid.length.trans hl, ShowsList.frame hsame hid ts hts⟩
  | v, .map entries, ⟨id, hv, ho, hk, hes⟩ => by
    obtain ⟨ho', hid⟩ := hsame id ho
    exact ⟨id, hv, ho', hid.mapShape hk, ShowsMap.frame hsame hid entries hes⟩

theorem ShowsList.frame {s s' : OpSet A} {own own' : OpId A → Prop}
    (hsame : ∀ id, own id → own' id ∧ SameObject s s' (some id)) {id : OpId A}
    (hid : SameObject s s' (some id)) :
    ∀ {i : ℕ} (ts : List Tree), ShowsList s own id i ts → ShowsList s' own' id i ts
  | _, [], _ => trivial
  | i, t :: ts, ⟨⟨v, hv, ht⟩, hts⟩ =>
    ⟨⟨v, (hid.listGet i).trans hv, Shows.frame hsame t ht⟩, ShowsList.frame hsame hid ts hts⟩

theorem ShowsMap.frame {s s' : OpSet A} {own own' : OpId A → Prop}
    (hsame : ∀ id, own id → own' id ∧ SameObject s s' (some id)) {obj : ObjId A}
    (hobj : SameObject s s' obj) :
    ∀ entries : List (String × Tree), ShowsMap s own obj entries → ShowsMap s' own' obj entries
  | [], _ => trivial
  | (k, t) :: entries, ⟨⟨v, hv, ht⟩, hes⟩ =>
    ⟨⟨v, (hobj.mapGet k).trans hv, Shows.frame hsame t ht⟩, ShowsMap.frame hsame hobj entries hes⟩

end

end OpSet

/-! ## One item -/

/-- The operation that stores an item. -/
def Item.action : Item → OpType
  | .scalar v => .put v
  | .str s => .put (.str (s.char.getD ""))
  | .object t => .make t

omit [LinearOrder A] in
theorem Row.value_put {r : Row A} {v : ScalarValue} (ha : r.action = .put v) (hs : r.succ = []) :
    r.value = .scalar v := by
  have hf : r.fixedValue = v := by
    unfold fixedValue
    rw [ha, hs]
    cases v <;> rfl
  unfold Row.value
  rw [ha, hf]

omit [LinearOrder A] in
theorem Row.value_make {r : Row A} {t : ObjType} (ha : r.action = .make t) :
    r.value = .object t r.id := by
  unfold Row.value
  rw [ha]

namespace Tx

/-- An item put at a key of a map. -/
theorem putItem_key_set {tx tx₁ : Tx A} (h : tx.Fresh) {obj : ObjId A} {name : RString}
    {item : Item} {id : Option (OpId A)}
    (heq : tx.putItem obj (.key name) item = (tx₁, .ok id)) :
    ∃ prop, name.char = some prop ∧
      (∀ prop', prop' ≠ prop → OpSet.visibleAtKey (tx₁.ops.rows obj) prop' =
        OpSet.visibleAtKey (tx.ops.rows obj) prop') ∧
      (MapRows (tx.ops.rows obj) → MapRows (tx₁.ops.rows obj)) ∧
      ∃ r, OpSet.visibleAtKey (tx₁.ops.rows obj) prop = [r] ∧
        Leads tx (tx.ops.rows obj) prop item.action r := by
  obtain ⟨ht, hname, hitem⟩ := putItem_key_ok heq
  obtain ⟨prop, hprop⟩ := Option.isSome_iff_exists.mp hname
  refine ⟨prop, hprop, ?_⟩
  have hset : item.action.isSetOrMake = true := by cases item <;> rfl
  obtain ⟨tx₂, id₂, hlocal, hne, r, hr, hlead⟩ := localMapOp_set h obj prop hset
  have hput : tx.putItem obj (.key name) item = lift (tx.localMapOp obj prop item.action) := by
    cases item with
    | scalar v => simp [putItem, hprop, putProp, put, objMeta, ht, localObjOp, Item.action]
    | str s =>
      obtain ⟨text, htext⟩ := Option.isSome_iff_exists.mp hitem
      simp [putItem, hprop, putProp, htext, put, objMeta, ht, localObjOp, Item.action]
    | object t => simp [putItem, hprop, putProp, putObject, objMeta, ht, localObjOp, Item.action]
  have hrows : MapRows (tx.ops.rows obj) →
      MapRows ((tx.localMapOp obj prop item.action).1.ops.rows obj) :=
    fun hm => mapRows_localMapOp hm prop item.action
  rw [hput, hlocal] at heq
  rw [hlocal] at hrows
  cases heq
  exact ⟨hne, hrows, r, hr, hlead⟩

/-- An item put behind the last element of a list. -/
theorem putItem_end_set {tx tx₁ : Tx A} {obj : ObjId A}
    (ht : tx.ops.objectType obj = some .list) (hp : PlainRows (tx.ops.rows obj)) {item : Item}
    {id : Option (OpId A)} (heq : tx.putItem obj (.pos none true) item = (tx₁, .ok id)) :
    ∃ r, tx₁.ops.rows obj = tx.ops.rows obj ++ [r] ∧ r.Plain ∧ r.id = tx.nextId ∧
      r.action = item.action := by
  obtain ⟨-, hitem⟩ := putItem_end_ok heq
  have hset : item.action.isSetOrMake = true := by cases item <;> rfl
  obtain ⟨tx₂, r, hins, hrows, hr, hid, ha⟩ := insert_end ht hp hset
  have hput : tx.putItem obj (.pos none true) item =
      ((lift (tx.insert obj (tx.ops.rows obj).length item.action)).1,
        (lift (tx.insert obj (tx.ops.rows obj).length item.action)).2.map some) := by
    unfold putItem
    simp only [adjust_end, length_plain ht hp]
    cases item with
    | scalar v => rfl
    | str s =>
      obtain ⟨text, htext⟩ := Option.isSome_iff_exists.mp hitem
      simp [insertItem, htext, Item.action]
    | object t => rfl
  rw [hput, hins] at heq
  cases heq
  exact ⟨r, hrows, hr, hid, ha⟩

/-! ## A new object -/

/-- The objects made since the counter `lo`. -/
def Since (lo : ℕ) (tx : Tx A) (id : OpId A) : Prop :=
  lo ≤ id.counter ∧ id.counter < tx.nextId.counter

/-- The item a value is put as. -/
def itemOf (value : RValue) : Option Item :=
  match encoding value with
  | .item item => some item
  | .object t => some (.object t)
  | .text _ => some (.object .text)
  | .unsupported _ => none

/-- From `tx` to `tx'` the value has been put as an item; if that made an object, only the
object has been written to since. -/
def PutsItem (tx tx' : Tx A) (obj : ObjId A) (key : RValue) (isMap forceInsert : Bool)
    (value : RValue) : Prop :=
  ∃ sl item tx₁ id, slot isMap key forceInsert = .ok sl ∧ itemOf value = some item ∧
    tx.putItem obj sl item = (tx₁, .ok id) ∧
    ((∃ t, item = .object t ∧ Created obj t tx tx₁ ∧ Writes (some tx.nextId) tx₁ tx') ∨
      tx' = tx₁)

theorem putValue_item {tx tx' : Tx A} (h : tx.Fresh) {obj : ObjId A} {key : RValue}
    {isMap forceInsert : Bool} {value : RValue}
    (heq : tx.putValue obj key isMap forceInsert value = (tx', .ok ())) :
    PutsItem tx tx' obj key isMap forceInsert value := by
  -- up to the elements
  have hbegin : ∀ {tx₂ : Tx A} {r : Option (OpId A)},
      tx.beginPut obj key isMap value forceInsert = (tx₂, .ok r) →
      PutsItem tx tx₂ obj key isMap forceInsert value := by
    intro tx₂ r hb
    unfold beginPut at hb
    split at hb
    · cases hb
    · rename_i sl hsl
      unfold PutsItem itemOf
      split at hb
      · cases hb
      · rename_i item he
        cases hput : tx.putItem obj sl item with
        | mk tx₁ result =>
          rw [hput] at hb
          cases result with
          | error e => cases hb
          | ok id =>
            cases hb
            exact ⟨sl, item, _, id, hsl, by rw [he], hput, Or.inr rfl⟩
      · rename_i t he
        exact ⟨sl, .object t, tx₂, r, hsl, by rw [he], hb, Or.inr rfl⟩
      · rename_i initial he
        cases hput : tx.putItem obj sl (.object .text) with
        | mk tx₁ result =>
          rw [hput] at hb
          cases result with
          | error e => cases hb
          | ok id =>
            refine ⟨sl, _, tx₁, id, hsl, by rw [he], hput, ?_⟩
            dsimp only at hb
            split at hb
            · cases hb
              exact Or.inr rfl
            · left
              obtain ⟨hok, herr⟩ := makes_putItem h obj sl .text
              cases ha : tx.accepts obj sl with
              | false =>
                obtain ⟨e, he⟩ := herr ha
                rw [hput] at he
                cases he
              | true =>
                obtain ⟨tx₃, hput', hc⟩ := hok ha
                rw [hput] at hput'
                cases hput'
                refine ⟨.text, rfl, hc, ?_⟩
                have hw := writes_amSpliceText (hc.writes.fresh h) (some tx.nextId) 0 0 initial
                generalize amSpliceText _ (some tx.nextId) 0 0 initial = reply at hb hw
                obtain ⟨tx₄, result⟩ := reply
                cases result with
                | error e => cases hb
                | ok u =>
                  cases hb
                  exact hw
  have hlist : ∀ {tx₂ : Tx A} {id : OpId A} {reply : Reply A RError Unit},
      tx.beginPut obj key isMap value forceInsert = (tx₂, .ok (some id)) →
      Writes (some id) tx₂ reply.1 → reply = (tx', .ok ()) →
      PutsItem tx tx' obj key isMap forceInsert value := by
    rintro tx₂ id reply hb hw rfl
    obtain ⟨t, he, rfl, hc⟩ := beginPut_some h hb
    obtain ⟨sl, item, tx₁, id, hsl, hitem, hput, hrest⟩ := hbegin hb
    have hobj : item = .object t := by
      unfold itemOf at hitem
      rw [he] at hitem
      cases hitem
      rfl
    subst hobj
    obtain ⟨hok, herr⟩ := makes_putItem h obj sl t
    cases ha : tx.accepts obj sl with
    | false =>
      obtain ⟨e, he⟩ := herr ha
      rw [hput] at he
      cases he
    | true =>
      obtain ⟨tx₃, hput', hc'⟩ := hok ha
      rw [hput] at hput'
      cases hput'
      refine ⟨sl, _, tx₁, _, hsl, hitem, hput, Or.inl ⟨t, rfl, hc', ?_⟩⟩
      rcases hrest with ⟨_, _, _, hw'⟩ | rfl
      · exact hw'.trans hw
      · exact hw
  have hleaf : ∀ {tx₂ : Tx A} {reply : Except RError (Option (OpId A))},
      tx.beginPut obj key isMap value forceInsert = (tx₂, reply) →
      (tx₂, reply.map fun _ => ()) = (tx', .ok ()) →
      PutsItem tx tx' obj key isMap forceInsert value := by
    intro tx₂ reply hb hr
    cases reply with
    | error e => cases hr
    | ok r =>
      cases hr
      exact hbegin hb
  cases value with
  | list cls xs =>
    unfold putValue at heq
    split at heq
    · rename_i tx₂ id hb
      obtain ⟨t, -, -, hc⟩ := beginPut_some h hb
      exact hlist hb (writes_populateList xs (hc.writes.fresh h) _) heq
    · rename_i hb
      exact hleaf hb heq
  | namedList cls xs =>
    unfold putValue at heq
    split at heq
    · rename_i tx₂ id hb
      obtain ⟨t, -, -, hc⟩ := beginPut_some h hb
      exact hlist hb (writes_populateMap xs (hc.writes.fresh h) _) heq
    · rename_i hb
      exact hleaf hb heq
  | null | logical | integer | double | character | raw | other =>
    unfold putValue at heq
    exact hleaf rfl heq

/-! ## The characters of a text -/

/-- The row of a character that has just been inserted. -/
structure CharRow (r : Row A) (c : Char) : Prop where
  plain : r.Plain
  action : r.action = .put (.str (String.ofList [c]))
  text : r.text = some 1

/-- The characters go in at `pos`, one row each. -/
theorem rows_insertChars (obj : ObjId A) : ∀ (chars : List Char) (tx : Tx A) (pos : ℕ)
    (elemid : ElemId A), pos ≤ (tx.ops.rows obj).length →
    ∃ new, (tx.insertChars obj pos elemid chars).ops.rows obj =
        (tx.ops.rows obj).take pos ++ new ++ (tx.ops.rows obj).drop pos ∧
      List.Forall₂ CharRow new chars
  | [], tx, pos, elemid, _ => ⟨[], by simp [insertChars], .nil⟩
  | c :: chars, tx, pos, elemid, hpos => by
    let op : Op A :=
      { obj := obj, key := .seq elemid, insert := true, action := .put (.str (String.ofList [c])),
        pred := [] }
    have hrows : (tx.splice pos op).ops.rows obj =
        (tx.ops.rows obj).take pos ++ [row tx.nextId op] ++ (tx.ops.rows obj).drop pos :=
      rows_splice tx pos op
    have hlen : ((tx.ops.rows obj).take pos).length = pos := List.length_take_of_le hpos
    obtain ⟨new, hnew, hchars⟩ := rows_insertChars obj chars (tx.splice pos op) (pos + 1)
      (some tx.nextId) (by
        rw [hrows]
        simp [hlen])
    refine ⟨row tx.nextId op :: new, ?_, .cons ⟨plain_row _ _ _ rfl, rfl, ?_⟩ hchars⟩
    · unfold insertChars
      rw [hnew, hrows]
      have htake : ((tx.ops.rows obj).take pos ++ [row tx.nextId op] ++
          (tx.ops.rows obj).drop pos).take (pos + 1) =
            (tx.ops.rows obj).take pos ++ [row tx.nextId op] := by
        rw [List.take_append_of_le_length (by simp [hlen]), List.take_of_length_le (by simp [hlen])]
      have hdrop : ((tx.ops.rows obj).take pos ++ [row tx.nextId op] ++
          (tx.ops.rows obj).drop pos).drop (pos + 1) = (tx.ops.rows obj).drop pos := by
        have hle : ((tx.ops.rows obj).take pos ++ [row tx.nextId op]).length = pos + 1 := by
          simp [hlen]
        rw [← hle, List.drop_left]
      rw [htake, hdrop]
      simp
    · show some (String.ofList [c]).length = some 1
      simp

omit [LinearOrder A] in
theorem text_charRows {s : OpSet A} {obj : ObjId A} {chars : List Char}
    (h : List.Forall₂ CharRow (s.rows obj) chars) : s.text obj = String.ofList chars := by
  have hall : ∀ {rows : List (Row A)} {chars : List Char}, List.Forall₂ CharRow rows chars →
      ∀ acc, ((rows.filter (·.visible)).map fun r => r.action.asStr).foldl (· ++ ·) acc =
        acc ++ String.ofList chars := by
    intro rows chars h
    induction h with
    | nil => intro acc; simp
    | @cons r c rows chars hr _ ih =>
      intro acc
      have hstr : r.action.asStr = String.ofList [c] := by
        rw [hr.action]
        rfl
      rw [List.filter_cons_of_pos hr.plain.visible, List.map_cons, List.foldl_cons, ih, hstr,
        String.append_assoc, ← String.ofList_append]
      rfl
  unfold OpSet.text
  rw [hall h]
  simp

theorem deleteChars_none (obj : ObjId A) (fuel : ℕ) (tx : Tx A) (index : ℕ) :
    deleteChars obj fuel tx index 0 0 = tx := by
  cases fuel with
  | zero => rfl
  | succ fuel =>
    unfold deleteChars
    rw [if_pos le_rfl]

/-- The text of a new text object is the string it is made with. -/
theorem amSpliceText_new {tx tx' : Tx A} {id : OpId A} (hr : tx.ops.rows (some id) = [])
    {initial : RString} (heq : tx.amSpliceText (some id) 0 0 initial = (tx', .ok ())) :
    ∃ s, initial.char = some s ∧ tx'.ops.text (some id) = s := by
  unfold amSpliceText at heq
  rw [if_neg (Nat.not_lt_zero _)] at heq
  cases hs : initial.char with
  | none =>
    rw [hs] at heq
    cases heq
  | some s =>
    rw [hs] at heq
    refine ⟨s, rfl, ?_⟩
    have heq := lift_ok heq
    unfold spliceText at heq
    split at heq
    · cases heq
    · unfold innerSplice at heq
      split at heq
      · rename_i hnil
        cases heq
        have hempty : s = "" := String.toList_inj.mp hnil
        rw [hempty]
        rw [deleteChars_none]
        unfold OpSet.text
        rw [hr]
        rfl
      · rename_i c chars hcons
        have hq : queryInsertAt .text ([] : List (Row A)) 0 = some ⟨0, 0, none⟩ := rfl
        rw [hr, hq] at heq
        cases heq
        obtain ⟨new, hnew, hchars⟩ := rows_insertChars (some id) (c :: chars) tx 0 none
          (Nat.zero_le _)
        rw [hr, List.take_nil, List.drop_nil, List.nil_append, List.append_nil] at hnew
        rw [deleteChars_none]
        have hrows : List.Forall₂ CharRow
            ((tx.insertChars (some id) 0 none (c :: chars)).ops.rows (some id)) (c :: chars) :=
          hnew ▸ hchars
        exact (text_charRows hrows).trans (by rw [← hcons, String.ofList_toList])
    · cases heq

/-! ## Filling a list -/

end Tx

namespace OpSet

omit [LinearOrder A] in
theorem nthPos_plain {rows : List (Row A)} (h : PlainRows rows) {i : ℕ} (hi : i < rows.length) :
    nthPos (·.top) i rows = some i := by
  have hsplit := List.take_append_drop i rows
  rw [List.drop_eq_getElem_cons hi] at hsplit
  have htop : ∀ r ∈ rows.take i, r.top = true := fun r hr => (h r (List.mem_of_mem_take hr)).top
  have hpos := nthPos_append_cons htop (h _ (List.getElem_mem hi)).top (rows.drop (i + 1))
  rwa [hsplit, List.length_take_of_le hi.le] at hpos

omit [LinearOrder A] in
/-- In a list that has only been appended to, an element is its row. -/
theorem register_plain {rows : List (Row A)} (h : PlainRows rows) {i : ℕ} (hi : i < rows.length) :
    register rows i = [rows[i]] := by
  have hinsert : ∀ r ∈ rows, (!r.insert) = false := by
    intro r hr
    rw [(h r hr).insert]
    rfl
  have hnone : ∀ l : List (Row A), (∀ r ∈ l, r ∈ rows) → l.takeWhile (fun r => !r.insert) = [] := by
    intro l hl
    cases l with
    | nil => rfl
    | cons r l =>
      rw [List.takeWhile_cons, hinsert r (hl r List.mem_cons_self)]
      rfl
  have hstart : registerStart rows i = i := by
    unfold registerStart
    rw [hnone _ fun r hr => List.mem_of_mem_take (List.mem_reverse.mp hr)]
    rfl
  have hend : registerEnd rows i = i + 1 := by
    unfold registerEnd
    rw [hnone _ fun r hr => List.mem_of_mem_drop hr]
    rfl
  unfold register
  rw [hstart, hend, List.take_add_one, List.getElem?_eq_getElem hi, Option.toList_some]
  rw [List.drop_append_of_le_length (by rw [List.length_take_of_le hi.le]),
    List.drop_of_length_le (by rw [List.length_take_of_le hi.le]), List.nil_append]

theorem listGet_plain {s : OpSet A} {obj : ObjId A} (ht : s.objectType obj = some .list)
    (h : PlainRows (s.rows obj)) {i : ℕ} {r : Row A} (hr : (s.rows obj)[i]? = some r) :
    s.listGet obj i = some r.value := by
  obtain ⟨hi, rfl⟩ := List.getElem?_eq_some_iff.mp hr
  have hvis := (h _ (List.getElem_mem hi)).visible
  have hne : ¬ ObjType.list = ObjType.text := by decide
  unfold listGet seekOpsByIndex seekListOpsByIndex
  rw [ht]
  simp only [hne, if_false, nthPos_plain h hi, register_plain h hi]
  simp [hvis]

/-- The list `id` has been filled with these trees. -/
structure FillsList (s : OpSet A) (own : OpId A → Prop) (id : OpId A) (ts : List Tree) : Prop where
  objectType : s.objectType (some id) = some .list
  plain : PlainRows (s.rows (some id))
  shows : List.Forall₂ (fun r t => Shows s own r.value t) (s.rows (some id)) ts

theorem FillsList.showsList {s : OpSet A} {own : OpId A → Prop} {id : OpId A} {ts : List Tree}
    (h : FillsList s own id ts) : ShowsList s own id 0 ts := by
  have hfrom : ∀ (ts : List Tree) (i : ℕ),
      List.Forall₂ (fun r t => Shows s own r.value t) ((s.rows (some id)).drop i) ts →
      ShowsList s own id i ts := by
    intro ts
    induction ts with
    | nil => exact fun _ _ => trivial
    | cons t ts ih =>
      intro i hi
      cases hd : (s.rows (some id)).drop i with
      | nil =>
        rw [hd] at hi
        cases hi
      | cons r rows =>
        rw [hd] at hi
        cases hi with
        | cons hr hrest =>
          have hget : (s.rows (some id))[i]? = some r := by
            rw [← List.head?_drop, hd]
            rfl
          refine ⟨⟨r.value, listGet_plain h.objectType h.plain hget, hr⟩, ih (i + 1) ?_⟩
          rw [← List.tail_drop, hd]
          exact hrest
  exact hfrom ts 0 h.shows

theorem FillsList.shows_list {s : OpSet A} {own own' : OpId A → Prop} {id : OpId A}
    {ts : List Tree} (h : FillsList s own id ts) (hown : ∀ id, own id → own' id) (hid : own' id) :
    Shows s own' (.object .list id) (.list ts) := by
  refine ⟨id, rfl, hid, h.objectType, ?_, ?_⟩
  · rw [Tx.length_plain h.objectType h.plain, h.shows.length_eq]
  · exact ShowsList.frame (fun id hid => ⟨hown id hid, rfl, rfl⟩) ⟨rfl, rfl⟩ ts h.showsList

end OpSet

/-! ## Filling a map -/

namespace Tree

theorem lookup_putEntry (entries : List (String × Tree)) (k : String) (t : Tree) (k' : String) :
    (putEntry entries k t).lookup k' =
      if k' = k then
        match entries.lookup k with
        | some old => some (old.overwrite t)
        | none => some t
      else entries.lookup k' := by
  induction entries with
  | nil =>
    by_cases hk : k' = k
    · simp [putEntry, hk]
    · have hne : (k' == k) = false := by simpa using hk
      simp [putEntry, List.lookup_cons, hk, hne]
  | cons e entries ih =>
    obtain ⟨k₀, t₀⟩ := e
    unfold putEntry
    by_cases h₀ : k₀ = k
    · subst h₀
      by_cases hk : k' = k₀
      · subst hk
        simp
      · have hne : (k' == k₀) = false := by simpa using hk
        simp [List.lookup_cons, hk, hne]
    · rw [if_neg h₀]
      by_cases hk' : k' = k₀
      · subst hk'
        simp [h₀]
      · have hne : (k' == k₀) = false := by simpa using hk'
        have hne' : (k == k₀) = false := by simpa using fun h => h₀ h.symm
        simp only [List.lookup_cons, hne, hne']
        exact ih

theorem keys_putEntry (entries : List (String × Tree)) (k : String) (t : Tree) :
    (putEntry entries k t).map Prod.fst =
      if k ∈ entries.map Prod.fst then entries.map Prod.fst else entries.map Prod.fst ++ [k] := by
  induction entries with
  | nil => rfl
  | cons e entries ih =>
    obtain ⟨k₀, t₀⟩ := e
    unfold putEntry
    by_cases h₀ : k₀ = k
    · simp [h₀]
    · have h₀' : ¬ k = k₀ := fun h => h₀ h.symm
      rw [if_neg h₀, List.map_cons, ih]
      by_cases hk : k ∈ entries.map Prod.fst
      · simp [hk]
      · simp only [hk, if_false, List.map_cons, List.mem_cons, h₀', or_self, List.cons_append]

theorem nodup_putEntry {entries : List (String × Tree)} (h : (entries.map Prod.fst).Nodup)
    (k : String) (t : Tree) : ((putEntry entries k t).map Prod.fst).Nodup := by
  rw [keys_putEntry]
  split
  · exact h
  · rename_i hk
    exact List.nodup_append.mpr ⟨h, List.nodup_singleton k, by
      rintro a ha b hb rfl
      rw [List.mem_singleton] at hb
      exact hk (hb ▸ ha)⟩

end Tree

namespace OpSet

omit [LinearOrder A] in
theorem lookup_of_mem {entries : List (String × Tree)} (hnd : (entries.map Prod.fst).Nodup)
    {k : String} {t : Tree} (h : (k, t) ∈ entries) : entries.lookup k = some t := by
  induction entries with
  | nil => cases h
  | cons e entries ih =>
    obtain ⟨k₀, t₀⟩ := e
    rw [List.map_cons, List.nodup_cons] at hnd
    rcases List.mem_cons.mp h with heq | hmem
    · cases heq
      rw [List.lookup_cons_self]
    · have hne : (k == k₀) = false := by
        rw [beq_eq_false_iff_ne]
        rintro rfl
        exact hnd.1 (List.mem_map.mpr ⟨_, hmem, rfl⟩)
      rw [List.lookup_cons, hne]
      exact ih hnd.2 hmem

/-- The map `obj` has been filled with these entries. -/
structure FillsMap (s : OpSet A) (own : OpId A → Prop) (obj : ObjId A)
    (entries : List (String × Tree)) : Prop where
  objectType : s.objectType obj = some .map
  rows : MapRows (s.rows obj)
  nodup : (entries.map Prod.fst).Nodup
  absent : ∀ prop, entries.lookup prop = none → visibleAtKey (s.rows obj) prop = []
  shows : ∀ prop t, entries.lookup prop = some t →
    ∃ r, visibleAtKey (s.rows obj) prop = [r] ∧ r.action.isSetOrMake = true ∧
      Shows s own r.value t

theorem mapGet_of_visible {s : OpSet A} {obj : ObjId A} (ht : s.objectType obj = some .map)
    (prop : String) :
    s.mapGet obj prop = ((visibleAtKey (s.rows obj) prop).getLast?).map Row.value := by
  unfold mapGet
  rw [ht]

/-- A map that has been filled has the keys of its entries, and their values. -/
theorem FillsMap.shows_entries {s : OpSet A} {own : OpId A → Prop} {obj : ObjId A}
    {entries : List (String × Tree)} (h : FillsMap s own obj entries) :
    MapShape s obj (entries.map Prod.fst) ∧ ShowsMap s own obj entries := by
  have hget : ∀ prop t, entries.lookup prop = some t →
      ∃ v, s.mapGet obj prop = some v ∧ Shows s own v t := by
    intro prop t hlookup
    obtain ⟨r, hr, -, hs⟩ := h.shows prop t hlookup
    refine ⟨r.value, ?_, hs⟩
    rw [mapGet_of_visible h.objectType, hr]
    rfl
  have hisSome : ∀ prop, (s.mapGet obj prop).isSome = true ↔ prop ∈ entries.map Prod.fst := by
    intro prop
    cases hlookup : entries.lookup prop with
    | none =>
      rw [mapGet_of_visible h.objectType, h.absent prop hlookup]
      have hnot : prop ∉ entries.map Prod.fst := by
        intro hmem
        obtain ⟨⟨k, t⟩, he, rfl⟩ := List.mem_map.mp hmem
        rw [List.lookup_eq_none_iff] at hlookup
        simpa using hlookup _ he
      simpa using hnot
    | some t =>
      obtain ⟨v, hv, -⟩ := hget prop t hlookup
      rw [hv]
      obtain ⟨l, l', hl, -⟩ := List.lookup_eq_some_iff.mp hlookup
      rw [hl]
      simp
  constructor
  · obtain ⟨hsorted, hmem, hlength⟩ := keys_mapRows h.objectType h.rows
    have hperm : (s.keys obj).Perm (entries.map Prod.fst) := by
      rw [List.perm_ext_iff_of_nodup hsorted.nodup h.nodup]
      exact fun prop => (hmem prop).trans (hisSome prop)
    exact ⟨h.objectType, hisSome, hsorted, hperm, hlength.trans hperm.length_eq⟩
  · have hall : ∀ es : List (String × Tree), (∀ e ∈ es, e ∈ entries) → ShowsMap s own obj es := by
      intro es
      induction es with
      | nil => exact fun _ => trivial
      | cons e es ih =>
        intro hes
        obtain ⟨k, t⟩ := e
        refine ⟨?_, ih fun e he => hes e (List.mem_cons_of_mem _ he)⟩
        apply hget
        exact lookup_of_mem h.nodup (hes _ List.mem_cons_self)
    exact hall entries fun e he => he

theorem FillsMap.shows_map {s : OpSet A} {own own' : OpId A → Prop} {id : OpId A}
    {entries : List (String × Tree)} (h : FillsMap s own (some id) entries)
    (hown : ∀ id, own id → own' id) (hid : own' id) :
    Shows s own' (.object .map id) (.map entries) := by
  obtain ⟨hshape, hshows⟩ := h.shows_entries
  exact ⟨id, rfl, hid, hshape,
    ShowsMap.frame (fun id hid => ⟨hown id hid, rfl, rfl⟩) ⟨rfl, rfl⟩ entries hshows⟩

end OpSet

/-! ## What has been stored is shown -/

theorem encoding_ne_table (v : RValue) : encoding v ≠ .item (.object .table) := by
  intro h
  unfold encoding at h
  split at h
  · split at h <;> cases h
  · split at h
    · split at h <;> cases h
    · split at h
      · split at h <;> cases h
      · split at h
        all_goals first
          | cases h
          | (split at h <;> first | cases h | (split at h <;> cases h))

/-- Whether the value is no list. -/
def RValue.isAtom : RValue → Bool
  | .list .. | .namedList .. => false
  | _ => true

theorem encoding_atom (v : RValue) (h : v.isAtom = true) (t : ObjType) :
    encoding v ≠ .object t := by
  intro henc
  unfold encoding at henc
  split at henc
  · split at henc <;> cases henc
  · split at henc
    · split at henc <;> cases henc
    · split at henc
      · split at henc <;> cases henc
      · split at henc
        case h_6 | h_7 => cases h
        all_goals first
          | cases henc
          | (split at henc <;> first | cases henc | (split at henc <;> cases henc))

theorem RValue.content_leaf {value : RValue} (h : ∀ t, encoding value ≠ .object t) :
    value.content = (encoding value).leaf := by
  match value with
  | .list cls xs | .namedList cls xs =>
    unfold RValue.content
    split
    · exact absurd ‹_› (h _)
    · exact absurd ‹_› (h _)
    · rfl
  | .null | .logical .. | .integer .. | .double .. | .character .. | .raw .. | .other .. => rfl

namespace Tx

theorem itemOf_scalar {value : RValue} {item : Item} (h : itemOf value = some item)
    (hno : ∀ t, item ≠ .object t) : encoding value = .item item := by
  unfold itemOf at h
  split at h
  · rename_i heq
    cases h
    exact heq
  · cases h
    exact absurd rfl (hno _)
  · cases h
    exact absurd rfl (hno _)
  · cases h

/-- The row of a stored value shows it, once the object it may have made does. -/
theorem shows_row {s : OpSet A} {own : OpId A → Prop} {value : RValue} {item : Item} {r : Row A}
    (hitem : itemOf value = some item) (ha : r.action = item.action) (hs : r.succ = [])
    (hobj : ∀ t, item = .object t → OpSet.Shows s own (.object t r.id) value.content) :
    OpSet.Shows s own r.value value.content := by
  cases item with
  | scalar v =>
    have henc := itemOf_scalar hitem (fun t h => by cases h)
    rw [RValue.content_leaf (by rw [henc]; exact fun t h => by cases h), henc, Row.value_put ha hs]
    rfl
  | str text =>
    have henc := itemOf_scalar hitem (fun t h => by cases h)
    rw [RValue.content_leaf (by rw [henc]; exact fun t h => by cases h), henc, Row.value_put ha hs]
    rfl
  | object t =>
    rw [Row.value_make ha]
    exact hobj t rfl

/-! ### An object without elements -/

omit [LinearOrder A] in
theorem since_nextId {tx tx' : Tx A} (h : tx'.Made (some tx.nextId)) :
    Since tx.nextId.counter tx' tx.nextId :=
  ⟨le_rfl, made_some.mp h⟩

theorem shows_empty {tx tx' : Tx A} {obj : ObjId A} {t : ObjType} (hc : Created obj t tx tx') :
    match t with
    | .list => OpSet.Shows tx'.ops (Since tx.nextId.counter tx') (.object .list tx.nextId) (.list [])
    | .map => OpSet.Shows tx'.ops (Since tx.nextId.counter tx') (.object .map tx.nextId) (.map [])
    | .text => OpSet.Shows tx'.ops (Since tx.nextId.counter tx') (.object .text tx.nextId) (.text "")
    | .table => True := by
  have hown := since_nextId hc.made
  have ht := hc.objectType
  cases t with
  | list =>
    refine ⟨tx.nextId, rfl, hown, ht, ?_, trivial⟩
    unfold OpSet.length
    rw [ht, hc.rows]
    rfl
  | map =>
    have hnone : OpSet.FillsMap tx'.ops (Since tx.nextId.counter tx') (some tx.nextId) [] :=
      ⟨ht, by rw [hc.rows]; exact MapRows.nil, List.nodup_nil, fun prop _ => by rw [hc.rows]; rfl,
        fun prop t hl => by cases hl⟩
    exact hnone.shows_map (fun _ h => h) hown
  | text =>
    refine ⟨tx.nextId, rfl, hown, ht, ?_⟩
    unfold OpSet.text
    rw [hc.rows]
    rfl
  | table => trivial

/-- A value that needs no populating and has made an object. -/
theorem shows_beginPut {tx tx' : Tx A} (h : tx.Fresh) {obj : ObjId A} {key : RValue} {isMap : Bool}
    {value : RValue} {forceInsert : Bool} {r : Option (OpId A)} {t : ObjType}
    (heq : tx.beginPut obj key isMap value forceInsert = (tx', .ok r))
    (hitem : itemOf value = some (.object t)) (hno : ∀ t, encoding value ≠ .object t) :
    OpSet.Shows tx'.ops (Since tx.nextId.counter tx') (.object t tx.nextId) (encoding value).leaf := by
  have hmade : ∀ {sl : Slot} {tx₁ : Tx A} {id : Option (OpId A)} {t' : ObjType},
      tx.putItem obj sl (.object t') = (tx₁, .ok id) → id = some tx.nextId ∧ Created obj t' tx tx₁ := by
    intro sl tx₁ id t' hput
    obtain ⟨hok, herr⟩ := makes_putItem h obj sl t'
    cases ha : tx.accepts obj sl with
    | false =>
      obtain ⟨e, he⟩ := herr ha
      rw [hput] at he
      cases he
    | true =>
      obtain ⟨tx₂, hput', hc⟩ := hok ha
      rw [hput] at hput'
      cases hput'
      exact ⟨rfl, hc⟩
  unfold itemOf at hitem
  unfold beginPut at heq
  split at heq
  · cases heq
  · rename_i sl hsl
    cases henc : encoding value with
    | item item =>
      rw [henc] at hitem heq
      cases hitem
      dsimp only at heq
      cases hput : tx.putItem obj sl (.object t) with
      | mk tx₁ result =>
        rw [hput] at heq
        cases result with
        | error e => cases heq
        | ok id =>
          cases heq
          obtain ⟨-, hc⟩ := hmade hput
          have hshows := shows_empty hc
          cases t with
          | list | map | text => exact hshows
          | table => exact absurd henc (encoding_ne_table value)
    | object t' => exact absurd henc (hno t')
    | unsupported message =>
      rw [henc] at hitem
      cases hitem
    | text initial =>
      rw [henc] at hitem heq
      cases hitem
      dsimp only at heq
      split at heq
      · cases heq
      · rename_i tx₁ id hput
        obtain ⟨rfl, hc⟩ := hmade hput
        split at heq
        · rename_i hempty
          cases heq
          have hshows := shows_empty hc
          show OpSet.Shows _ _ _ (.text (initial.char.getD ""))
          rw [hempty]
          exact hshows
        · have hw := writes_amSpliceText (hc.writes.fresh h) (some tx.nextId) 0 0 initial
          cases hsp : tx₁.amSpliceText (some tx.nextId) 0 0 initial with
          | mk tx₂ result =>
            rw [hsp] at heq hw
            cases result with
            | error e => cases heq
            | ok u =>
              cases heq
              obtain ⟨s, hs, htext⟩ := amSpliceText_new hc.rows hsp
              show OpSet.Shows _ _ _ (.text (initial.char.getD ""))
              rw [hs]
              exact ⟨tx.nextId, rfl, since_nextId (hc.made.mono hw.next),
                (hw.objectType _ hc.made).trans hc.objectType, htext⟩

theorem shows_atom {tx tx' : Tx A} (h : tx.Fresh) {obj : ObjId A} {key : RValue} {isMap : Bool}
    {value : RValue} {forceInsert : Bool} {t : ObjType}
    (heq : ((tx.beginPut obj key isMap value forceInsert).1,
      (tx.beginPut obj key isMap value forceInsert).2.map fun _ => ()) = (tx', .ok ()))
    (hatom : value.isAtom = true) (hitem : itemOf value = some (.object t)) :
    OpSet.Shows tx'.ops (Since tx.nextId.counter tx') (.object t tx.nextId) value.content := by
  have hno := encoding_atom value hatom
  cases hb : tx.beginPut obj key isMap value forceInsert with
  | mk tx₁ result =>
    rw [hb] at heq
    cases result with
    | error e => cases heq
    | ok r =>
      cases heq
      rw [RValue.content_leaf hno]
      exact shows_beginPut h hb hitem hno

/-! ### Elements -/

/-- A write to an older object leaves those made since alone. -/
theorem Writes.since {tx tx' : Tx A} {obj : ObjId A} {lo : ℕ} (hw : Writes obj tx tx')
    (hobj : ∀ id ∈ obj, id.counter < lo) {o : OpId A} (ho : Since lo tx o) :
    Since lo tx' o ∧ OpSet.SameObject tx.ops tx'.ops (some o) := by
  have hne : some o ≠ obj := by
    rintro rfl
    exact absurd ho.1 (not_le.mpr (hobj o rfl))
  have hm : tx.Made (some o) := made_some.mpr ho.2
  exact ⟨⟨ho.1, lt_of_lt_of_le ho.2 hw.next⟩, hw.rows _ hne hm, hw.objectType _ hm⟩

omit [LinearOrder A] in
theorem Since.mono {tx : Tx A} {lo hi : ℕ} {o : OpId A} (h : Since hi tx o) (hle : lo ≤ hi) :
    Since lo tx o :=
  ⟨hle.trans h.1, h.2⟩

/-- What a value that is put shows, if it makes an object. -/
def ShowsNew (value : RValue) : Prop :=
  ∀ {tx tx' : Tx A}, tx.Fresh → ∀ {obj : ObjId A} {key : RValue} {isMap forceInsert : Bool}
    {t : ObjType}, tx.putValue obj key isMap forceInsert value = (tx', .ok ()) →
      itemOf value = some (.object t) →
      OpSet.Shows tx'.ops (Since tx.nextId.counter tx') (.object t tx.nextId) value.content

/-- The next element of a list. -/
theorem fills_list {x : RValue} (hx : ShowsNew (A := A) x) {tx tx' : Tx A} (h : tx.Fresh) {lo : ℕ}
    {id : OpId A} {ts : List Tree} (hid : ∀ o ∈ some id, o.counter < lo) (hlo : lo ≤ tx.nextId.counter)
    (hf : OpSet.FillsList tx.ops (Since lo tx) id ts)
    (heq : tx.putValue (some id) endMarker false false x = (tx', .ok ())) :
    OpSet.FillsList tx'.ops (Since lo tx') id (ts ++ [x.content]) := by
  have hw := writes_putValue x h (some id) endMarker false false
  rw [heq] at hw
  have hm := h.made hf.objectType
  obtain ⟨sl, item, tx₁, id', hsl, hitem, hput, hrest⟩ := putValue_item h heq
  rw [slot_endMarker] at hsl
  cases hsl
  obtain ⟨r, hrows, hr, hrid, ha⟩ := putItem_end_set hf.objectType hf.plain hput
  -- nothing is written to the list any more
  have hrows' : tx'.ops.rows (some id) = tx.ops.rows (some id) ++ [r] := by
    rcases hrest with ⟨t, -, hc, hw'⟩ | rfl
    · rw [hw'.rows _ (ne_nextId hm).symm (hm.mono hc.writes.next), hrows]
    · exact hrows
  refine ⟨(hw.objectType _ hm).trans hf.objectType, ?_, ?_⟩
  · rw [hrows']
    exact hf.plain.append hr
  · rw [hrows']
    refine List.rel_append (hf.shows.imp fun r t hrt => ?_) (.cons ?_ .nil)
    · exact hrt.frame (fun o ho => hw.since hid ho) t
    · refine shows_row hitem ha hr.succ fun t ht => ?_
      subst ht
      rw [hrid]
      refine (hx h heq hitem).frame (fun o ho => ⟨ho.mono hlo, rfl, rfl⟩) _

omit [LinearOrder A] in
theorem fixedValue_of_value {r : Row A} {w : ScalarValue} (hset : r.action.isSetOrMake = true)
    (hv : r.value = .scalar w) : r.action.objType? = none ∧ r.fixedValue = w := by
  unfold Row.value at hv
  cases ha : r.action with
  | put v =>
    rw [ha] at hv
    exact ⟨rfl, Value.scalar.inj hv⟩
  | make t =>
    rw [ha] at hv
    cases hv
  | delete | increment | markBegin | markEnd =>
    rw [ha] at hset
    cases hset

omit [LinearOrder A] in
theorem Holds.value {r : Row A} {v : ScalarValue} (h : Holds r v) : r.value = .scalar r.fixedValue := by
  obtain ⟨hset, ho, -⟩ := h
  unfold Row.value
  cases ha : r.action with
  | put | delete | increment => rfl
  | make t =>
    rw [ha] at ho
    cases ho
  | markBegin | markEnd =>
    rw [ha] at hset
    cases hset

/-- What a put at a key leads to is what the new entry says. -/
theorem shows_overwrite {s s' : OpSet A} {own own' : OpId A → Prop} {tx : Tx A}
    {rows : List (Row A)} {prop : String} {item : Item} {old new : Tree} {r r₀ : Row A}
    (hlead : Leads tx rows prop item.action r) (hlast : (OpSet.visibleAtKey rows prop).getLast? = some r₀)
    (hset : r₀.action.isSetOrMake = true) (h₀ : OpSet.Shows s own r₀.value old)
    (hold : OpSet.Shows s' own' r₀.value old) (hscalar : ∀ v, new = .scalar v → item.action = .put v)
    (hput : ∀ v, item.action = .put v → new = .scalar v)
    (hnew : r.action = item.action → r.succ = [] → r.id = tx.nextId →
      OpSet.Shows s' own' r.value new) :
    r.action.isSetOrMake = true ∧ OpSet.Shows s' own' r.value (old.overwrite new) := by
  generalize haction : item.action = action at hlead hscalar hput hnew
  cases hlead with
  | new hid ha hs hnot =>
    refine ⟨?_, ?_⟩
    · rw [ha, ← haction]
      cases item <;> rfl
    · have hover : old.overwrite new = new := by
        unfold Tree.overwrite
        split
        · rename_i w v
          obtain ⟨ho, hw⟩ := fixedValue_of_value hset h₀
          have hne := hnot v r₀ (hscalar v rfl) hlast
          rw [if_neg]
          intro heq
          exact hne ⟨hset, ho, hw ▸ heq⟩
        · rfl
      rw [hover]
      exact hnew ha hs hid
  | kept hr hv =>
    rw [hlast] at hr
    cases hr
    refine ⟨hset, ?_⟩
    have hval := hv.value
    obtain ⟨-, -, heq⟩ := hv
    have hover : old.overwrite new = old := by
      rw [hput _ rfl]
      cases old with
      | scalar w =>
        have hw : r.value = .scalar w := h₀
        rw [hval] at hw
        cases hw
        show (if _ then _ else _) = _
        rw [if_pos heq]
      | text str =>
        obtain ⟨_, hw, _⟩ := h₀
        rw [hval] at hw
        cases hw
      | list ts =>
        obtain ⟨_, hw, _⟩ := h₀
        rw [hval] at hw
        cases hw
      | map entries =>
        obtain ⟨_, hw, _⟩ := h₀
        rw [hval] at hw
        cases hw
    rw [hover]
    exact hold

/-- The next entry of a map. -/
theorem fills_map {x : RValue} (hx : ShowsNew (A := A) x) {tx tx' : Tx A} (h : tx.Fresh) {lo : ℕ}
    {obj : ObjId A} {entries : List (String × Tree)} {name : RString}
    (hobj : ∀ o ∈ obj, o.counter < lo) (hlo : lo ≤ tx.nextId.counter)
    (hf : OpSet.FillsMap tx.ops (Since lo tx) obj entries)
    (heq : tx.putValue obj (.character [] [name]) true false x = (tx', .ok ())) :
    OpSet.FillsMap tx'.ops (Since lo tx') obj
      (Tree.putEntry entries (name.char.getD "") x.content) := by
  have hw := writes_putValue x h obj (.character [] [name]) true false
  rw [heq] at hw
  have hm := h.made hf.objectType
  obtain ⟨sl, item, tx₁, id', hsl, hitem, hput, hrest⟩ := putValue_item h heq
  rw [slot_name] at hsl
  cases hsl
  obtain ⟨prop, hprop, hother, hmap, r, hvis, hlead⟩ := putItem_key_set h hput
  rw [hprop]
  -- nothing is written to the map any more
  have hrows : tx'.ops.rows obj = tx₁.ops.rows obj := by
    rcases hrest with ⟨t, -, hc, hw'⟩ | rfl
    · exact hw'.rows _ (ne_nextId hm).symm (hm.mono hc.writes.next)
    · rfl
  have hold : ∀ {r : Row A} {t : Tree}, OpSet.Shows tx.ops (Since lo tx) r.value t →
      OpSet.Shows tx'.ops (Since lo tx') r.value t :=
    fun hrt => OpSet.Shows.frame (fun o ho => hw.since hobj ho) _ hrt
  have hnew : r.action = item.action → r.succ = [] → r.id = tx.nextId →
      OpSet.Shows tx'.ops (Since lo tx') r.value x.content := by
    intro ha hs hrid
    refine shows_row hitem ha hs fun t ht => ?_
    subst ht
    rw [hrid]
    exact OpSet.Shows.frame (fun o ho => ⟨ho.mono hlo, rfl, rfl⟩) _ (hx h heq hitem)
  refine ⟨(hw.objectType _ hm).trans hf.objectType, hrows ▸ hmap hf.rows,
    Tree.nodup_putEntry hf.nodup _ _, ?_, ?_⟩
  · intro prop' hlookup
    rw [Option.getD_some, Tree.lookup_putEntry] at hlookup
    split at hlookup
    · split at hlookup <;> cases hlookup
    · rename_i hne
      rw [hrows, hother prop' hne]
      exact hf.absent prop' hlookup
  · intro prop' t hlookup
    rw [Option.getD_some, Tree.lookup_putEntry] at hlookup
    split at hlookup
    · rename_i hp
      subst hp
      refine ⟨r, hrows ▸ hvis, ?_⟩
      cases hl : entries.lookup prop' with
      | none =>
        rw [hl] at hlookup
        cases hlookup
        have hempty := hf.absent prop' hl
        generalize haction : item.action = action at hlead hnew
        cases hlead with
        | new hrid ha hs _ =>
          refine ⟨?_, hnew ha hs hrid⟩
          rw [ha, ← haction]
          cases item <;> rfl
        | kept hr _ =>
          rw [hempty] at hr
          cases hr
      | some old =>
        rw [hl] at hlookup
        cases hlookup
        obtain ⟨r₀, hr₀, hset, hs⟩ := hf.shows prop' old hl
        refine shows_overwrite hlead (by rw [hr₀]; rfl) hset hs (hold hs) ?_ ?_ hnew
        · intro v hv
          cases item with
          | scalar w | str text =>
            have henc := itemOf_scalar hitem (fun t h => by cases h)
            rw [RValue.content_leaf (by rw [henc]; exact fun t h => by cases h), henc] at hv
            cases hv
            rfl
          | object t =>
            have hobj := hx h heq hitem
            rw [hv] at hobj
            cases hobj
        · intro v hv
          cases item with
          | scalar w | str text =>
            have henc := itemOf_scalar hitem (fun t h => by cases h)
            rw [RValue.content_leaf (by rw [henc]; exact fun t h => by cases h), henc]
            cases hv
            rfl
          | object t => cases hv
    · rename_i hne
      obtain ⟨r', hr', hset, hs⟩ := hf.shows prop' t hlookup
      refine ⟨r', ?_, hset, hold hs⟩
      rw [hrows, hother prop' hne]
      exact hr'

/-! ### The whole value -/

mutual

/-- A value that has been put and has made an object shows its content there. -/
theorem shows_putValue (value : RValue) : ShowsNew (A := A) value := by
  intro tx tx' h obj key isMap forceInsert t heq hitem
  have hid : ∀ o ∈ some tx.nextId, o.counter < tx.nextId.counter + 1 := by
    rintro o ⟨⟩
    exact Nat.lt_succ_self _
  have hlo : ∀ {tx₁ : Tx A}, tx₁.Made (some tx.nextId) → tx.nextId.counter + 1 ≤ tx₁.nextId.counter :=
    fun hm => made_some.mp hm
  match value with
  | .list cls xs =>
    unfold putValue at heq
    rcases populated h (fun tx id => tx.populateList id xs) heq with
      ⟨t', tx₁, henc, hc, hpop⟩ | ⟨hno, r, hb⟩
    · unfold itemOf at hitem
      rw [henc] at hitem
      cases hitem
      have hw := writes_populateList xs (hc.writes.fresh h) (some tx.nextId)
      rw [hpop] at hw
      have hown := since_nextId (hc.made.mono hw.next)
      unfold RValue.content
      rw [henc]
      rcases encoding_object henc with rfl | rfl
      · have hf := fills_populateList xs (hc.writes.fresh h) hid (hlo hc.made)
          ⟨hc.objectType, by rw [hc.rows]; exact fun r hr => absurd hr List.not_mem_nil,
            by rw [hc.rows]; exact .nil⟩ hpop
        exact hf.shows_list (fun o ho => ho.mono (Nat.le_succ _)) hown
      · have hnil : xs = [] := by
          by_contra hne
          obtain ⟨t', ht', hseq⟩ := (storable_of_populateList xs (hc.writes.fresh h) hpop).1 hne
          cases ht'.symm.trans hc.objectType
          cases hseq
        subst hnil
        cases hpop
        exact shows_empty hc
    · rw [RValue.content_leaf hno]
      exact shows_beginPut h hb hitem hno
  | .namedList cls xs =>
    unfold putValue at heq
    rcases populated h (fun tx id => tx.populateMap id xs) heq with
      ⟨t', tx₁, henc, hc, hpop⟩ | ⟨hno, r, hb⟩
    · unfold itemOf at hitem
      rw [henc] at hitem
      cases hitem
      have hw := writes_populateMap xs (hc.writes.fresh h) (some tx.nextId)
      rw [hpop] at hw
      have hown := since_nextId (hc.made.mono hw.next)
      unfold RValue.content
      rw [henc]
      rcases encoding_object henc with rfl | rfl
      · have hnil : xs = [] := by
          by_contra hne
          have hmap := (storable_of_populateMap xs (hc.writes.fresh h) hpop).1 hne
          cases hmap.symm.trans hc.objectType
        subst hnil
        cases hpop
        exact shows_empty hc
      · have hnone :
            OpSet.FillsMap tx₁.ops (Since (tx.nextId.counter + 1) tx₁) (some tx.nextId) [] :=
          ⟨hc.objectType, by rw [hc.rows]; exact MapRows.nil, List.nodup_nil, fun prop _ => by rw [hc.rows]; rfl,
            fun prop t hl => by cases hl⟩
        have hf := fills_populateMap xs (hc.writes.fresh h) hid (hlo hc.made)
          hnone hpop
        exact hf.shows_map (fun o ho => ho.mono (Nat.le_succ _)) hown
    · rw [RValue.content_leaf hno]
      exact shows_beginPut h hb hitem hno
  | .null | .logical .. | .integer .. | .double .. | .character .. | .raw .. | .other .. =>
    unfold putValue at heq
    exact shows_atom h heq rfl hitem

theorem fills_populateList (xs : List RValue) :
    ∀ {tx tx' : Tx A}, tx.Fresh → ∀ {lo : ℕ} {id : OpId A} {ts : List Tree},
      (∀ o ∈ some id, o.counter < lo) → lo ≤ tx.nextId.counter → OpSet.FillsList tx.ops (Since lo tx) id ts →
      tx.populateList (some id) xs = (tx', .ok ()) →
      OpSet.FillsList tx'.ops (Since lo tx') id (ts ++ contentList xs) := by
  intro tx tx' h lo id ts hid hlo hf heq
  match xs with
  | [] =>
    cases heq
    rw [contentList, List.append_nil]
    exact hf
  | x :: xs =>
    unfold populateList at heq
    cases hput : tx.putValue (some id) endMarker false false x with
    | mk tx₁ result =>
      rw [hput] at heq
      cases result with
      | error e => cases heq
      | ok u =>
        have hw := writes_putValue x h (some id) endMarker false false
        rw [hput] at hw
        have hnext := fills_list (shows_putValue x) h hid hlo hf hput
        have hrest := fills_populateList xs (hw.fresh h) hid (hlo.trans hw.next) hnext heq
        rwa [List.append_assoc] at hrest

theorem fills_populateMap (xs : List (RString × RValue)) :
    ∀ {tx tx' : Tx A}, tx.Fresh → ∀ {lo : ℕ} {obj : ObjId A} {entries : List (String × Tree)},
      (∀ o ∈ obj, o.counter < lo) → lo ≤ tx.nextId.counter →
      OpSet.FillsMap tx.ops (Since lo tx) obj entries → tx.populateMap obj xs = (tx', .ok ()) →
      OpSet.FillsMap tx'.ops (Since lo tx') obj (contentMap entries xs) := by
  intro tx tx' h lo obj entries hobj hlo hf heq
  match xs with
  | [] =>
    cases heq
    exact hf
  | (name, x) :: xs =>
    unfold populateMap at heq
    cases hput : tx.putValue obj (.character [] [name]) true false x with
    | mk tx₁ result =>
      rw [hput] at heq
      cases result with
      | error e => cases heq
      | ok u =>
        have hw := writes_putValue x h obj (.character [] [name]) true false
        rw [hput] at hw
        exact fills_populateMap xs (hw.fresh h) hobj (hlo.trans hw.next)
          (fills_map (shows_putValue x) h hobj hlo hf hput) heq

end

end Tx

end AutomergeR
