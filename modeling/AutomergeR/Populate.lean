import AutomergeR.LocalOps
import AutomergeR.Objects
import Mathlib.Data.List.Induction

/-! # Storing a nested value

`am_put_value` makes a container first and then fills it element by element. What it
writes to (`writes_putValue`), when the container is made (`Tx.accepts`), and when all of
its parts can be stored (`RValue.storable`), which together decide whether a failed call
leaves something behind.
-/

namespace AutomergeR

variable {A : Type} [LinearOrder A]

namespace Tx

/-! ## What the calls write to -/

omit [LinearOrder A] in
theorem lift_fst {α : Type} (reply : Reply A OpError α) : (lift reply).1 = reply.1 := by
  obtain ⟨tx, result⟩ := reply
  cases result <;> rfl

theorem writes_putProp {tx : Tx A} (h : tx.Fresh) (obj : ObjId A) (prop : ObjProp) (item : Item) :
    Writes obj tx (tx.putProp obj prop item).1 := by
  cases item with
  | scalar v =>
    show Writes obj tx (lift (tx.put obj prop v)).1
    rw [lift_fst]
    exact writes_put h obj prop v
  | str text =>
    unfold putProp
    dsimp only
    split
    · rw [lift_fst]
      exact writes_put h obj prop _
    · exact Writes.refl obj tx
  | object t =>
    show Writes obj tx (lift (tx.putObject obj prop t)).1
    rw [lift_fst]
    exact writes_putObject h obj prop t

theorem writes_insertItem {tx : Tx A} (h : tx.Fresh) (obj : ObjId A) (index : ℕ) (item : Item) :
    Writes obj tx (tx.insertItem obj index item).1 := by
  cases item with
  | scalar v =>
    show Writes obj tx (lift (tx.insert obj index (.put v))).1
    rw [lift_fst]
    exact writes_insert h obj index _
  | str text =>
    unfold insertItem
    dsimp only
    split
    · rw [lift_fst]
      exact writes_insert h obj index _
    · exact Writes.refl obj tx
  | object t =>
    show Writes obj tx (lift (tx.insert obj index (.make t))).1
    rw [lift_fst]
    exact writes_insert h obj index _

theorem writes_putItem {tx : Tx A} (h : tx.Fresh) (obj : ObjId A) (slot : Slot) (item : Item) :
    Writes obj tx (tx.putItem obj slot item).1 := by
  cases slot with
  | key key =>
    unfold putItem
    dsimp only
    split
    · exact writes_putProp h obj _ item
    · exact Writes.refl obj tx
  | pos pos insert =>
    unfold putItem
    dsimp only
    split
    · exact Writes.refl obj tx
    · exact writes_insertItem h obj _ item
    · exact writes_putProp h obj _ item

theorem writes_amSpliceText {tx : Tx A} (h : tx.Fresh) (obj : ObjId A) (pos del : ℕ)
    (text : RString) : Writes obj tx (tx.amSpliceText obj pos del text).1 := by
  unfold amSpliceText
  split
  · exact Writes.refl obj tx
  · split
    · rw [lift_fst]
      exact writes_spliceText h obj pos del _
    · exact Writes.refl obj tx

/-! ## Making a container -/

/-- Whether an object can be inserted at `index`, or put there. -/
def acceptsAt (tx : Tx A) (obj : ObjId A) (index : ℕ) (insert : Bool) : Bool :=
  match insert, tx.ops.objectType obj with
  | true, some t => t.isSequence && (queryInsertAt t (tx.ops.rows obj) index).isSome
  | false, some .list => (OpSet.seekOpsByIndex .list (tx.ops.rows obj) index).ops.head?.isSome
  | _, _ => false

/-- Whether an object can be made at a key or a position: the object put into has the
right type, and the position leads somewhere. -/
def accepts (tx : Tx A) (obj : ObjId A) : Slot → Bool
  | .key key => key.char.isSome && decide (tx.ops.objectType obj = some .map)
  | .pos pos insert =>
    match adjust pos insert (tx.ops.length obj) with
    | .ok (index, insert) => tx.acceptsAt obj index insert
    | .error _ => false

/-- `tx'` is `tx` with a new object of type `t`, shown in `obj`. -/
structure Created (obj : ObjId A) (t : ObjType) (tx tx' : Tx A) : Prop where
  writes : Writes obj tx tx'
  made : tx'.Made (some tx.nextId)
  objectType : tx'.ops.objectType (some tx.nextId) = some t
  rows : tx'.ops.rows (some tx.nextId) = []
  shown : ∃ r ∈ tx'.ops.rows obj, r.id = tx.nextId ∧ r.action = .make t ∧ r.visible = true

omit [LinearOrder A] in
theorem ne_nextId {tx : Tx A} {obj : ObjId A} (hm : tx.Made obj) : some tx.nextId ≠ obj := by
  rintro rfl
  exact not_made_nextId tx hm

theorem created_splice {tx : Tx A} {obj : ObjId A} {t : ObjType} (h : tx.Fresh) (hm : tx.Made obj)
    (pos : ℕ) (op : Op A) (ho : op.obj = obj) (ha : op.action = .make t) :
    Created obj t tx (tx.splice pos op) where
  writes := writes_splice pos op ho hm
  made := by
    rw [made_some, counter_nextId_splice]
    exact Nat.lt_succ_self _
  objectType := objectType_splice_make tx pos op ha
  rows := by
    rw [rows_splice_ne tx pos op (ho ▸ ne_nextId hm)]
    exact h.rows _ (not_made_nextId tx)
  shown := by
    subst ho
    refine ⟨row tx.nextId op, ?_, rfl, ha, ?_⟩
    · rw [rows_splice, ha]
      simp
    · simp [row, ha, OpType.isIncrement]

theorem Created.addSuccs {tx tx' : Tx A} {obj : ObjId A} {t : ObjType}
    (h : Created obj t tx tx') (hm : tx.Made obj) (ids : List (OpId A)) (s : OpId A × Option ℤ)
    (hids : tx.nextId ∉ ids) : Created obj t tx (tx'.addSuccs obj ids s) where
  writes := h.writes.trans (writes_addSuccs ..)
  made := h.made
  objectType := (objectType_setRows ..).trans h.objectType
  rows := (rows_setRows_ne _ _ (ne_nextId hm)).trans h.rows
  shown := by
    obtain ⟨r, hr, hid, ha, hv⟩ := h.shown
    refine ⟨r, ?_, hid, ha, hv⟩
    unfold Tx.addSuccs
    rw [rows_setRows, List.mem_map]
    refine ⟨r, hr, ?_⟩
    rw [if_neg (hid ▸ hids)]

omit [LinearOrder A] in
/-- The operations found for an object's slot are among its rows. -/
theorem nextId_not_mem_ids {tx : Tx A} (h : tx.Fresh) {obj : ObjId A} {ops : List (Row A)}
    (hops : ∀ r ∈ ops, r ∈ tx.ops.rows obj) : tx.nextId ∉ ops.map Row.id := by
  intro hmem
  obtain ⟨r, hr, hid⟩ := List.mem_map.mp hmem
  have := h.ids obj r (hops r hr)
  rw [hid] at this
  exact lt_irrefl _ this

omit [LinearOrder A] in
theorem resolveAction_make (ops : List (Row A)) (t : ObjType) :
    resolveAction ops (.make t) = some (ops, .make t) := by
  unfold resolveAction
  split
  · contradiction
  · contradiction
  · rfl

/-- Making an object where other values are: they get a successor. -/
theorem localOp_make {tx : Tx A} {obj : ObjId A} (h : tx.Fresh) (hm : tx.Made obj) (key : Key A)
    (found : OpSet.OpsFound A) (t : ObjType) (hops : ∀ r ∈ found.ops, r ∈ tx.ops.rows obj) :
    ∃ tx', tx.localOp obj key found (.make t) = (tx', .ok (some tx.nextId, found.ops)) ∧
      Created obj t tx tx' := by
  unfold localOp
  rw [resolveAction_make]
  refine ⟨_, rfl, ?_⟩
  exact (created_splice h hm _ _ rfl rfl).addSuccs hm _ _ (nextId_not_mem_ids h hops)

theorem mem_visibleAtKey {rows : List (Row A)} {prop : String} {r : Row A}
    (h : r ∈ OpSet.visibleAtKey rows prop) : r ∈ rows := List.mem_of_mem_filter h

omit [LinearOrder A] in
theorem mem_register {rows : List (Row A)} {pos : ℕ} {r : Row A}
    (h : r ∈ OpSet.register rows pos) : r ∈ rows :=
  List.mem_of_mem_take (List.mem_of_mem_drop h)

omit [LinearOrder A] in
theorem mem_seekListOps {rows : List (Row A)} {index : ℕ} {r : Row A}
    (h : r ∈ (OpSet.seekListOpsByIndex rows index).ops) : r ∈ rows := by
  unfold OpSet.seekListOpsByIndex at h
  split at h
  · exact mem_register (List.mem_of_mem_filter h)
  · cases h

theorem putObject_map {tx : Tx A} {obj : ObjId A} (h : tx.Fresh)
    (ht : tx.ops.objectType obj = some .map) (prop : String) (t : ObjType) :
    ∃ tx', tx.putObject obj (.map prop) t = (tx', .ok (some tx.nextId)) ∧ Created obj t tx tx' := by
  obtain ⟨tx', heq, hc⟩ := localOp_make h (h.made ht) (.map prop)
    ⟨0, OpSet.visibleAtKey (tx.ops.rows obj) prop, keyEnd (tx.ops.rows obj) prop⟩ t
    (fun r hr => mem_visibleAtKey hr)
  refine ⟨tx', ?_, hc⟩
  simp only [putObject, objMeta, ht, localObjOp, localMapOp, heq]
  rfl

theorem putObject_seq {tx : Tx A} {obj : ObjId A} (h : tx.Fresh)
    (ht : tx.ops.objectType obj = some .list) (index : ℕ) (t : ObjType)
    (hi : (OpSet.seekOpsByIndex .list (tx.ops.rows obj) index).ops.head?.isSome = true) :
    ∃ tx', tx.putObject obj (.seq index) t = (tx', .ok (some tx.nextId)) ∧ Created obj t tx tx' := by
  obtain ⟨first, hfirst⟩ := Option.isSome_iff_exists.mp hi
  obtain ⟨tx', heq, hc⟩ := localOp_make h (h.made ht) (.seq first.cursor)
    (OpSet.seekOpsByIndex .list (tx.ops.rows obj) index) t (fun r hr => mem_seekListOps hr)
  refine ⟨tx', ?_, hc⟩
  simp only [putObject, objMeta, ht, localObjOp, ObjType.isSequence, if_true, localListOp, hfirst,
    heq]
  rfl

theorem insert_make {tx : Tx A} {obj : ObjId A} (h : tx.Fresh) {t₀ : ObjType}
    (ht : tx.ops.objectType obj = some t₀) (hs : t₀.isSequence = true) (index : ℕ) (t : ObjType)
    (hq : (queryInsertAt t₀ (tx.ops.rows obj) index).isSome = true) :
    ∃ tx', tx.insert obj index (.make t) = (tx', .ok tx.nextId) ∧ Created obj t tx tx' := by
  obtain ⟨query, hquery⟩ := Option.isSome_iff_exists.mp hq
  refine ⟨_, ?_, created_splice h (h.made ht) query.pos
    { obj := obj, key := .seq query.elemid, insert := true, action := .make t, pred := [] } rfl rfl⟩
  simp only [insert, objMeta, ht, hs, if_true, doInsert, hquery]

/-- A call makes an object of type `t` in `obj` when `accepted`, and fails otherwise. -/
def Makes {α : Type} (tx : Tx A) (obj : ObjId A) (t : ObjType) (accepted : Bool) (made : α)
    (reply : Reply A RError α) : Prop :=
  (accepted = true → ∃ tx', reply = (tx', .ok made) ∧ Created obj t tx tx') ∧
    (accepted = false → ∃ e, reply = (tx, .error e))

theorem Makes.fails {α : Type} {tx : Tx A} {obj : ObjId A} {t : ObjType} {made : α}
    {reply : Reply A RError α} (e : RError) (h : reply = (tx, .error e)) :
    Makes tx obj t false made reply :=
  ⟨fun ha => absurd ha Bool.false_ne_true, fun _ => ⟨e, h⟩⟩

theorem Makes.succeeds {α : Type} {tx tx' : Tx A} {obj : ObjId A} {t : ObjType} {made : α}
    {reply : Reply A RError α} (h : reply = (tx', .ok made)) (hc : Created obj t tx tx') :
    Makes tx obj t true made reply :=
  ⟨fun _ => ⟨tx', h, hc⟩, fun ha => absurd ha.symm Bool.false_ne_true⟩

theorem makes_putProp_map {tx : Tx A} (h : tx.Fresh) (obj : ObjId A) (prop : String)
    (t : ObjType) :
    Makes tx obj t (decide (tx.ops.objectType obj = some .map)) (some tx.nextId)
      (tx.putProp obj (.map prop) (.object t)) := by
  cases ho : tx.ops.objectType obj with
  | none =>
    apply Makes.fails (.op .notAnObject)
    simp [putProp, putObject, objMeta, ho, lift]
  | some t₀ =>
    cases t₀ with
    | map =>
      obtain ⟨tx', heq, hc⟩ := putObject_map h ho prop t
      apply Makes.succeeds ?_ hc
      simp only [putProp, heq, lift]
    | table | list | text =>
      apply Makes.fails (.op .invalidOp)
      simp [putProp, putObject, objMeta, ho, lift]

theorem makes_putProp_seq {tx : Tx A} (h : tx.Fresh) (obj : ObjId A) (index : ℕ) (t : ObjType) :
    Makes tx obj t (tx.acceptsAt obj index false) (some tx.nextId)
      (tx.putProp obj (.seq index) (.object t)) := by
  unfold acceptsAt
  cases ho : tx.ops.objectType obj with
  | none =>
    apply Makes.fails (.op .notAnObject)
    simp [putProp, putObject, objMeta, ho, lift]
  | some t₀ =>
    cases t₀ with
    | list =>
      dsimp only
      cases hi : (OpSet.seekOpsByIndex .list (tx.ops.rows obj) index).ops.head? with
      | none =>
        apply Makes.fails (.op (.invalidIndex index))
        simp [putProp, putObject, objMeta, ho, localObjOp, ObjType.isSequence, localListOp, hi, lift]
      | some first =>
        obtain ⟨tx', heq, hc⟩ := putObject_seq h ho index t (by rw [hi]; rfl)
        apply Makes.succeeds ?_ hc
        simp only [putProp, heq, lift]
    | map | table | text =>
      apply Makes.fails (.op .invalidOp)
      simp [putProp, putObject, objMeta, ho, lift]

theorem makes_insertItem {tx : Tx A} (h : tx.Fresh) (obj : ObjId A) (index : ℕ) (t : ObjType) :
    Makes tx obj t (tx.acceptsAt obj index true) tx.nextId
      (tx.insertItem obj index (.object t)) := by
  unfold acceptsAt
  cases ho : tx.ops.objectType obj with
  | none =>
    apply Makes.fails (.op .notAnObject)
    simp [insertItem, insert, objMeta, ho, lift]
  | some t₀ =>
    dsimp only
    cases hs : t₀.isSequence with
    | false =>
      apply Makes.fails (.op .invalidOp)
      simp [insertItem, insert, objMeta, ho, hs, lift]
    | true =>
      cases hq : queryInsertAt t₀ (tx.ops.rows obj) index with
      | none =>
        apply Makes.fails (.op (.invalidIndex index))
        simp [insertItem, insert, objMeta, ho, hs, doInsert, hq, lift]
      | some query =>
        obtain ⟨tx', heq, hc⟩ := insert_make h ho hs index t (by rw [hq]; rfl)
        apply Makes.succeeds ?_ hc
        simp only [insertItem, heq, lift]

/-- The container is made where the slot is accepted, and nowhere else. -/
theorem makes_putItem {tx : Tx A} (h : tx.Fresh) (obj : ObjId A) (slot : Slot) (t : ObjType) :
    Makes tx obj t (tx.accepts obj slot) (some tx.nextId) (tx.putItem obj slot (.object t)) := by
  cases slot with
  | key key =>
    unfold accepts putItem
    dsimp only
    cases hk : key.char with
    | none => exact Makes.fails .invalidUtf8 rfl
    | some prop => exact makes_putProp_map h obj prop t
  | pos pos ins =>
    unfold accepts putItem
    dsimp only
    cases hadj : adjust pos ins (tx.ops.length obj) with
    | error e => exact Makes.fails e rfl
    | ok place =>
      obtain ⟨index, ins'⟩ := place
      cases ins' with
      | false => exact makes_putProp_seq h obj index t
      | true =>
        obtain ⟨hok, herr⟩ := makes_insertItem h obj index t
        constructor
        · intro ha
          obtain ⟨tx', heq, hc⟩ := hok ha
          refine ⟨tx', ?_, hc⟩
          dsimp only
          rw [heq]
          rfl
        · intro ha
          obtain ⟨e, heq⟩ := herr ha
          refine ⟨e, ?_⟩
          dsimp only
          rw [heq]
          rfl

/-! ## Filling it -/

theorem writes_beginPut {tx : Tx A} (h : tx.Fresh) (obj : ObjId A) (key : RValue) (isMap : Bool)
    (value : RValue) (forceInsert : Bool) :
    Writes obj tx (tx.beginPut obj key isMap value forceInsert).1 := by
  unfold beginPut
  split
  · exact Writes.refl obj tx
  · rename_i sl _
    split
    · exact Writes.refl obj tx
    · exact writes_putItem h obj sl _
    · exact writes_putItem h obj sl _
    · obtain ⟨hok, herr⟩ := makes_putItem h obj sl .text
      cases ha : tx.accepts obj sl with
      | false =>
        obtain ⟨e, heq⟩ := herr ha
        rw [heq]
        exact Writes.refl obj tx
      | true =>
        obtain ⟨tx', heq, hc⟩ := hok ha
        rw [heq]
        dsimp only
        split
        · exact hc.writes
        · exact hc.writes.nested (writes_amSpliceText (hc.writes.fresh h) _ 0 0 _)
            (not_made_nextId tx)

/-- An object that is to be populated has just been made. -/
theorem beginPut_some {tx tx' : Tx A} (h : tx.Fresh) {obj : ObjId A} {key : RValue} {isMap : Bool}
    {value : RValue} {forceInsert : Bool} {id : OpId A}
    (heq : tx.beginPut obj key isMap value forceInsert = (tx', .ok (some id))) :
    ∃ t, encoding value = .object t ∧ id = tx.nextId ∧ Created obj t tx tx' := by
  unfold beginPut at heq
  split at heq
  · cases heq
  · rename_i sl _
    split at heq
    · cases heq
    · rename_i item _
      generalize tx.putItem obj sl item = reply at heq
      obtain ⟨tx₁, result⟩ := reply
      cases result <;> cases heq
    · rename_i t ht
      obtain ⟨hok, herr⟩ := makes_putItem h obj sl t
      cases ha : tx.accepts obj sl with
      | false =>
        obtain ⟨e, he⟩ := herr ha
        rw [he] at heq
        cases heq
      | true =>
        obtain ⟨tx₁, he, hc⟩ := hok ha
        rw [he] at heq
        cases heq
        exact ⟨t, ht, rfl, hc⟩
    · split at heq
      · cases heq
      · dsimp only at heq
        split at heq
        · cases heq
        · rename_i tx₁ id₁ _ _
          generalize tx₁.amSpliceText id₁ 0 0 _ = reply at heq
          obtain ⟨tx₂, result⟩ := reply
          cases result <;> cases heq

mutual

theorem writes_putValue (value : RValue) :
    ∀ {tx : Tx A}, tx.Fresh → ∀ (obj : ObjId A) (key : RValue) (isMap forceInsert : Bool),
      Writes obj tx (tx.putValue obj key isMap forceInsert value).1 := by
  intro tx h obj key isMap forceInsert
  have hw := writes_beginPut h obj key isMap value forceInsert
  match value with
  | .list cls xs =>
    unfold putValue
    split
    · rename_i tx₁ id heq
      obtain ⟨t, -, rfl, hc⟩ := beginPut_some h heq
      exact hc.writes.nested (writes_populateList xs (hc.writes.fresh h) _) (not_made_nextId tx)
    · rename_i heq
      rw [heq] at hw
      exact hw
  | .namedList cls xs =>
    unfold putValue
    split
    · rename_i tx₁ id heq
      obtain ⟨t, -, rfl, hc⟩ := beginPut_some h heq
      exact hc.writes.nested (writes_populateMap xs (hc.writes.fresh h) _) (not_made_nextId tx)
    · rename_i heq
      rw [heq] at hw
      exact hw
  | .null | .logical .. | .integer .. | .double .. | .character .. | .raw .. | .other .. =>
    unfold putValue
    exact hw

theorem writes_populateList (xs : List RValue) :
    ∀ {tx : Tx A}, tx.Fresh → ∀ obj : ObjId A, Writes obj tx (tx.populateList obj xs).1 := by
  intro tx h obj
  match xs with
  | [] => exact Writes.refl obj tx
  | x :: xs =>
    have hw := writes_putValue x h obj endMarker false false
    unfold populateList
    split
    · rename_i heq
      rw [heq] at hw
      exact hw.trans (writes_populateList xs (hw.fresh h) obj)
    · rename_i heq
      rw [heq] at hw
      exact hw

theorem writes_populateMap (xs : List (RString × RValue)) :
    ∀ {tx : Tx A}, tx.Fresh → ∀ obj : ObjId A, Writes obj tx (tx.populateMap obj xs).1 := by
  intro tx h obj
  match xs with
  | [] => exact Writes.refl obj tx
  | (name, x) :: xs =>
    have hw := writes_putValue x h obj (.character [] [name]) true false
    unfold populateMap
    split
    · rename_i heq
      rw [heq] at hw
      exact hw.trans (writes_populateMap xs (hw.fresh h) obj)
    · rename_i heq
      rw [heq] at hw
      exact hw

end

end Tx

/-! ## Appending to a list

A list that has only been appended to has one row for each element. -/

/-- The row of an element that nothing has happened to. -/
structure Row.Plain (r : Row A) : Prop where
  insert : r.insert = true
  visible : r.visible = true
  top : r.top = true
  isInc : r.isInc = false
  unhidden : r.unhidden = true
  isMark : r.action.isMark = false
  succ : r.succ = []

def PlainRows (rows : List (Row A)) : Prop := ∀ r ∈ rows, r.Plain

omit [LinearOrder A] in
theorem plain_row (id : OpId A) (obj : ObjId A) (key : Key A) {action : OpType}
    (ha : action.isSetOrMake = true) :
    (Tx.row id { obj := obj, key := key, insert := true, action := action, pred := [] }).Plain := by
  cases action with
  | put v => constructor <;> simp [Tx.row, Row.isInc, Row.unhidden, OpType.isIncrement, OpType.isMark]
  | make t => constructor <;> simp [Tx.row, Row.isInc, Row.unhidden, OpType.isIncrement, OpType.isMark]
  | delete | increment | markBegin | markEnd => cases ha

omit [LinearOrder A] in
theorem PlainRows.append {rows : List (Row A)} {r : Row A} (h : PlainRows rows) (hr : r.Plain) :
    PlainRows (rows ++ [r]) := by
  intro r' hr'
  rcases List.mem_append.mp hr' with hr' | hr'
  · exact h r' hr'
  · rw [List.mem_singleton.mp hr']
    exact hr

namespace OpSet

omit [LinearOrder A] in
theorem countElems_plain {rows : List (Row A)} (h : PlainRows rows) :
    ∀ seen, countElems rows seen = rows.length := by
  induction rows with
  | nil => exact fun _ => rfl
  | cons r rows ih =>
    intro seen
    have hr := h r List.mem_cons_self
    simp only [countElems, hr.insert, hr.visible, Bool.not_true, Bool.and_false, Bool.not_false,
      Bool.and_self, if_true, List.length_cons]
    rw [ih (fun r' hr' => h r' (List.mem_cons_of_mem r hr'))]

omit [LinearOrder A] in
theorem nthPos_append_cons {p : Row A → Bool} {rows : List (Row A)} (h : ∀ r ∈ rows, p r = true)
    {r : Row A} (hr : p r = true) (after : List (Row A)) :
    nthPos p rows.length (rows ++ r :: after) = some rows.length := by
  induction rows with
  | nil => simp [nthPos, hr]
  | cons r' rows ih =>
    have hr' := h r' List.mem_cons_self
    simp only [List.cons_append, List.length_cons, nthPos, hr', if_true]
    rw [ih (fun r'' hr'' => h r'' (List.mem_cons_of_mem r' hr''))]
    rfl

end OpSet

namespace Tx

/-- The place behind the last element. -/
theorem queryInsertAt_end {rows : List (Row A)} (h : PlainRows rows) :
    ∃ query, queryInsertAt .list rows rows.length = some query ∧ query.pos = rows.length := by
  induction rows using List.reverseRecOn with
  | nil => exact ⟨⟨0, 0, none⟩, rfl, rfl⟩
  | append_singleton rows r _ =>
    have hr := h r (List.mem_append_right rows List.mem_cons_self)
    have hpos : OpSet.nthPos (·.top) rows.length (rows ++ [r]) = some rows.length :=
      OpSet.nthPos_append_cons
        (fun r' hr' => (h r' (List.mem_append_left [r] hr')).top) hr.top []
    refine ⟨⟨rows.length + 1, rows.length + 1, r.cursor⟩, ?_, by simp⟩
    have hlist : (ObjType.list = ObjType.text) = False := by simp
    simp only [queryInsertAt, List.length_append, List.length_singleton, Nat.add_one_ne_zero,
      if_false, hlist, Nat.add_sub_cancel, hpos, Option.getD_some]
    simp [InsertQuery.resolve, InsertQuery.loop, InsertQuery.step, InsertQuery.finish, hr.isInc,
      hr.insert, hr.unhidden, hr.isMark]

/-- Inserting behind the last element appends a row. -/
theorem insert_end {tx : Tx A} {obj : ObjId A} (ht : tx.ops.objectType obj = some .list)
    (h : PlainRows (tx.ops.rows obj)) {action : OpType} (ha : action.isSetOrMake = true) :
    ∃ tx' r, tx.insert obj (tx.ops.rows obj).length action = (tx', .ok tx.nextId) ∧
      tx'.ops.rows obj = tx.ops.rows obj ++ [r] ∧ r.Plain ∧ r.id = tx.nextId ∧
      r.action = action := by
  obtain ⟨query, hquery, hpos⟩ := queryInsertAt_end h
  refine ⟨tx.splice query.pos
      { obj := obj, key := .seq query.elemid, insert := true, action := action, pred := [] },
    row tx.nextId
      { obj := obj, key := .seq query.elemid, insert := true, action := action, pred := [] },
    ?_, ?_, plain_row _ _ _ ha, rfl, rfl⟩
  · simp only [insert, objMeta, ht, ObjType.isSequence, if_true, doInsert, hquery]
  · have hne : action ≠ .delete := by
      rintro rfl
      cases ha
    have hrows := rows_splice tx query.pos
      { obj := obj, key := .seq query.elemid, insert := true, action := action, pred := [] }
    dsimp only at hrows
    rw [hrows, hpos, List.take_length, List.drop_length, if_neg hne, List.append_nil]

end Tx

/-! ## Values all of whose parts can be stored -/

def Item.storable : Item → Bool
  | .str text => text.char.isSome
  | _ => true

def Encoding.storable : Encoding → Bool
  | .item i => i.storable
  | .text initial => initial.char.isSome
  | .object _ => true
  | .unsupported _ => false

mutual

/-- A list must fill the object it becomes: one without names a list, one with names a
map. -/
def RValue.storable : RValue → Bool
  | .list cls xs =>
    match encoding (.list cls xs) with
    | .object t => (xs.isEmpty || decide (t = .list)) && storableList xs
    | e => e.storable
  | .namedList cls xs =>
    match encoding (.namedList cls xs) with
    | .object t => (xs.isEmpty || decide (t = .map)) && storableNamed xs
    | e => e.storable
  | v => (encoding v).storable

def storableList : List RValue → Bool
  | [] => true
  | x :: xs => x.storable && storableList xs

def storableNamed : List (RString × RValue) → Bool
  | [] => true
  | (name, x) :: xs => name.char.isSome && x.storable && storableNamed xs

end

namespace Tx

/-- The call returns. -/
def Succeeds {E α : Type} (reply : Reply A E α) : Prop := ∃ tx' a, reply = (tx', .ok a)

omit [LinearOrder A] in
theorem Succeeds.lift {α : Type} {reply : Reply A OpError α} (h : Succeeds reply) :
    Succeeds (Tx.lift reply) := by
  obtain ⟨tx', a, rfl⟩ := h
  exact ⟨tx', a, rfl⟩

omit [LinearOrder A] in
theorem resolveAction_isIncrement {ops ops' : List (Row A)} {action action' : OpType}
    (h : resolveAction ops action = some (ops', action')) (ha : action.isIncrement = false) :
    action'.isIncrement = false := by
  unfold resolveAction at h
  split at h
  · split at h
    · split at h
      · cases h
      · cases h
        rfl
    · cases h
      exact ha
  · cases h
  · cases h
    exact ha

/-- Only an increment can fail. -/
theorem localOp_succeeds (tx : Tx A) (obj : ObjId A) (key : Key A) (found : OpSet.OpsFound A)
    (action : OpType) (ha : action.isIncrement = false) :
    Succeeds (tx.localOp obj key found action) := by
  unfold localOp
  split
  · exact ⟨tx, _, rfl⟩
  · rename_i ops action' heq
    have := resolveAction_isIncrement heq ha
    simp only [this, Bool.false_and, Bool.false_eq_true, if_false]
    exact ⟨_, _, rfl⟩

theorem put_map_succeeds {tx : Tx A} {obj : ObjId A} (ht : tx.ops.objectType obj = some .map)
    (prop : String) (v : ScalarValue) : Succeeds (tx.put obj (.map prop) v) := by
  obtain ⟨tx', a, heq⟩ := tx.localOp_succeeds obj (.map prop)
    ⟨0, OpSet.visibleAtKey (tx.ops.rows obj) prop, keyEnd (tx.ops.rows obj) prop⟩
    (.put v) rfl
  refine ⟨tx', a.1, ?_⟩
  simp only [put, objMeta, ht, localObjOp, localMapOp, heq]
  rfl

theorem put_seq_succeeds {tx : Tx A} {obj : ObjId A} (ht : tx.ops.objectType obj = some .list)
    {index : ℕ} (hi : (OpSet.seekOpsByIndex .list (tx.ops.rows obj) index).ops.head?.isSome = true)
    (v : ScalarValue) : Succeeds (tx.put obj (.seq index) v) := by
  obtain ⟨first, hfirst⟩ := Option.isSome_iff_exists.mp hi
  obtain ⟨tx', a, heq⟩ := tx.localOp_succeeds obj (.seq first.cursor)
    (OpSet.seekOpsByIndex .list (tx.ops.rows obj) index) (.put v) rfl
  refine ⟨tx'.exposeCounter obj (.put v) a.2, a.1, ?_⟩
  simp only [put, objMeta, ht, localObjOp, ObjType.isSequence, if_true, localListOp, hfirst, heq]

theorem insert_succeeds {tx : Tx A} {obj : ObjId A} {t : ObjType}
    (ht : tx.ops.objectType obj = some t) (hs : t.isSequence = true) {index : ℕ}
    (hq : (queryInsertAt t (tx.ops.rows obj) index).isSome = true) (action : OpType) :
    Succeeds (tx.insert obj index action) := by
  obtain ⟨query, hquery⟩ := Option.isSome_iff_exists.mp hq
  simp only [insert, objMeta, ht, hs, if_true, doInsert, hquery]
  exact ⟨_, _, rfl⟩

theorem acceptsAt_insert {tx : Tx A} {obj : ObjId A} {index : ℕ}
    (h : tx.acceptsAt obj index true = true) :
    ∃ t, tx.ops.objectType obj = some t ∧ t.isSequence = true ∧
      (queryInsertAt t (tx.ops.rows obj) index).isSome = true := by
  unfold acceptsAt at h
  cases ht : tx.ops.objectType obj with
  | none => simp [ht] at h
  | some t =>
    simp only [ht, Bool.and_eq_true] at h
    exact ⟨t, rfl, h.1, h.2⟩

theorem acceptsAt_put {tx : Tx A} {obj : ObjId A} {index : ℕ}
    (h : tx.acceptsAt obj index false = true) :
    tx.ops.objectType obj = some .list ∧
      (OpSet.seekOpsByIndex .list (tx.ops.rows obj) index).ops.head?.isSome = true := by
  unfold acceptsAt at h
  cases ht : tx.ops.objectType obj with
  | none => simp [ht] at h
  | some t =>
    cases t with
    | list =>
      simp only [ht] at h
      exact ⟨rfl, h⟩
    | map | table | text => simp [ht] at h

theorem insertItem_succeeds {tx : Tx A} {obj : ObjId A} {index : ℕ}
    (h : tx.acceptsAt obj index true = true) {item : Item} (hi : item.storable = true) :
    Succeeds (tx.insertItem obj index item) := by
  obtain ⟨t, ht, hs, hq⟩ := acceptsAt_insert h
  cases item with
  | scalar v => exact (insert_succeeds ht hs hq (.put v)).lift
  | str text =>
    obtain ⟨s, hs'⟩ := Option.isSome_iff_exists.mp hi
    unfold insertItem
    simp only [hs']
    exact (insert_succeeds ht hs hq (.put (.str s))).lift
  | object t' => exact (insert_succeeds ht hs hq (.make t')).lift

theorem putProp_map_succeeds {tx : Tx A} (h : tx.Fresh) {obj : ObjId A}
    (ht : tx.ops.objectType obj = some .map) (prop : String) {item : Item}
    (hi : item.storable = true) : Succeeds (tx.putProp obj (.map prop) item) := by
  cases item with
  | scalar v => exact (put_map_succeeds ht prop v).lift
  | str text =>
    obtain ⟨s, hs'⟩ := Option.isSome_iff_exists.mp hi
    unfold putProp
    simp only [hs']
    exact (put_map_succeeds ht prop (.str s)).lift
  | object t =>
    obtain ⟨tx', heq, -⟩ := putObject_map h ht prop t
    exact Succeeds.lift ⟨tx', _, heq⟩

theorem putProp_seq_succeeds {tx : Tx A} (h : tx.Fresh) {obj : ObjId A} {index : ℕ}
    (ha : tx.acceptsAt obj index false = true) {item : Item} (hi : item.storable = true) :
    Succeeds (tx.putProp obj (.seq index) item) := by
  obtain ⟨ht, hs⟩ := acceptsAt_put ha
  cases item with
  | scalar v => exact (put_seq_succeeds ht hs v).lift
  | str text =>
    obtain ⟨s, hs'⟩ := Option.isSome_iff_exists.mp hi
    unfold putProp
    simp only [hs']
    exact (put_seq_succeeds ht hs (.str s)).lift
  | object t =>
    obtain ⟨tx', heq, -⟩ := putObject_seq h ht index t hs
    exact Succeeds.lift ⟨tx', _, heq⟩

/-- What is accepted of an object is accepted of every item. -/
theorem putItem_succeeds {tx : Tx A} (h : tx.Fresh) {obj : ObjId A} {slot : Slot}
    (ha : tx.accepts obj slot = true) {item : Item} (hi : item.storable = true) :
    Succeeds (tx.putItem obj slot item) := by
  cases slot with
  | key key =>
    unfold accepts at ha
    unfold putItem
    rw [Bool.and_eq_true, decide_eq_true_eq] at ha
    obtain ⟨prop, hprop⟩ := Option.isSome_iff_exists.mp ha.1
    simp only [hprop]
    exact putProp_map_succeeds h ha.2 prop hi
  | pos pos ins =>
    unfold accepts at ha
    unfold putItem
    dsimp only at ha ⊢
    cases hadj : adjust pos ins (tx.ops.length obj) with
    | error e => simp [hadj] at ha
    | ok place =>
      obtain ⟨index, ins'⟩ := place
      rw [hadj] at ha
      cases ins' with
      | false => exact putProp_seq_succeeds h ha hi
      | true =>
        obtain ⟨tx', id, heq⟩ := insertItem_succeeds ha hi
        refine ⟨tx', some id, ?_⟩
        dsimp only
        rw [heq]
        rfl

/-- A valid string goes into a text that has just been made. -/
theorem amSpliceText_succeeds {tx : Tx A} {id : OpId A}
    (ht : tx.ops.objectType (some id) = some .text) (hr : tx.ops.rows (some id) = [])
    {text : RString} (hv : text.char.isSome = true) :
    Succeeds (tx.amSpliceText (some id) 0 0 text) := by
  obtain ⟨s, hs⟩ := Option.isSome_iff_exists.mp hv
  unfold amSpliceText
  simp only [Nat.not_lt_zero, if_false, hs]
  apply Succeeds.lift
  simp only [spliceText, objMeta, ht]
  unfold innerSplice
  split
  · exact ⟨_, _, rfl⟩
  · have hq : queryInsertAt .text ([] : List (Row A)) 0 = some ⟨0, 0, none⟩ := rfl
    simp only [hr, hq]
    exact ⟨_, _, rfl⟩

theorem beginPut_succeeds {tx : Tx A} (h : tx.Fresh) {obj : ObjId A} {key : RValue} {isMap : Bool}
    {value : RValue} {forceInsert : Bool} {sl : Slot} (hsl : slot isMap key forceInsert = .ok sl)
    (ha : tx.accepts obj sl = true) (hv : (encoding value).storable = true) :
    Succeeds (tx.beginPut obj key isMap value forceInsert) := by
  unfold beginPut
  rw [hsl]
  dsimp only
  cases he : encoding value with
  | unsupported m =>
    rw [he] at hv
    cases hv
  | item item =>
    rw [he] at hv
    obtain ⟨tx', id, heq⟩ := putItem_succeeds h ha (show item.storable = true from hv)
    exact ⟨tx', none, by simp only [heq]; rfl⟩
  | object t =>
    obtain ⟨tx', heq, -⟩ := (makes_putItem h obj sl t).1 ha
    exact ⟨tx', _, heq⟩
  | text initial =>
    rw [he] at hv
    obtain ⟨tx', heq, hc⟩ := (makes_putItem h obj sl .text).1 ha
    obtain ⟨tx'', r, hs⟩ := amSpliceText_succeeds hc.objectType hc.rows hv
    simp only [heq]
    split
    · exact ⟨tx', none, rfl⟩
    · exact ⟨tx'', none, by rw [hs]; rfl⟩

theorem accepts_key {tx : Tx A} {obj : ObjId A} (ht : tx.ops.objectType obj = some .map)
    {name : RString} (hn : name.char.isSome = true) : tx.accepts obj (.key name) = true := by
  simp [accepts, hn, ht]

theorem length_plain {s : OpSet A} {obj : ObjId A} (ht : s.objectType obj = some .list)
    (hp : PlainRows (s.rows obj)) : s.length obj = (s.rows obj).length := by
  simp only [OpSet.length, ht]
  exact OpSet.countElems_plain hp false

omit [LinearOrder A] in
theorem adjust_end (len : ℕ) : adjust none true len = .ok (len, true) := by
  simp [adjust]

theorem accepts_end {tx : Tx A} {obj : ObjId A} (ht : tx.ops.objectType obj = some .list)
    (hp : PlainRows (tx.ops.rows obj)) : tx.accepts obj (.pos none true) = true := by
  obtain ⟨query, hquery, -⟩ := queryInsertAt_end hp
  simp only [accepts, adjust_end, length_plain ht hp, acceptsAt, ht, hquery, ObjType.isSequence,
    Option.isSome_some, Bool.and_self]

/-! ## Appending keeps a list plain -/

theorem plain_insert {tx tx' : Tx A} {obj : ObjId A} (ht : tx.ops.objectType obj = some .list)
    (hp : PlainRows (tx.ops.rows obj)) {action : OpType} (ha : action.isSetOrMake = true) {id : OpId A}
    (heq : tx.insert obj (tx.ops.rows obj).length action = (tx', .ok id)) :
    PlainRows (tx'.ops.rows obj) := by
  obtain ⟨tx₁, r, hins, hrows, hr, -, -⟩ := insert_end ht hp ha
  rw [hins] at heq
  cases heq
  rw [hrows]
  exact hp.append hr

theorem plain_insertItem {tx tx' : Tx A} {obj : ObjId A} (ht : tx.ops.objectType obj = some .list)
    (hp : PlainRows (tx.ops.rows obj)) {item : Item} {id : OpId A}
    (heq : tx.insertItem obj (tx.ops.rows obj).length item = (tx', .ok id)) :
    PlainRows (tx'.ops.rows obj) := by
  have hlift : ∀ {reply : Reply A OpError (OpId A)}, lift reply = (tx', .ok id) →
      reply = (tx', .ok id) := by
    rintro ⟨tx₁, result⟩ hl
    cases result with
    | ok a =>
      cases hl
      rfl
    | error e => cases hl
  cases item with
  | scalar v => exact plain_insert ht hp rfl (hlift heq)
  | str text =>
    unfold insertItem at heq
    dsimp only at heq
    split at heq
    · exact plain_insert ht hp rfl (hlift heq)
    · cases heq
  | object t => exact plain_insert ht hp rfl (hlift heq)

theorem plain_putItem {tx tx' : Tx A} {obj : ObjId A} (ht : tx.ops.objectType obj = some .list)
    (hp : PlainRows (tx.ops.rows obj)) {item : Item} {id : Option (OpId A)}
    (heq : tx.putItem obj (.pos none true) item = (tx', .ok id)) :
    PlainRows (tx'.ops.rows obj) := by
  unfold putItem at heq
  simp only [adjust_end, length_plain ht hp] at heq
  cases hins : tx.insertItem obj (tx.ops.rows obj).length item with
  | mk tx₁ result =>
    rw [hins] at heq
    cases result with
    | error e => cases heq
    | ok id₁ =>
      cases heq
      exact plain_insertItem ht hp hins

theorem slot_endMarker (forceInsert : Bool) :
    slot false endMarker forceInsert = .ok (.pos none true) := rfl

theorem slot_name (name : RString) :
    slot true (.character [] [name]) false = .ok (.key name) := rfl

theorem plain_beginPut {tx tx' : Tx A} (h : tx.Fresh) {obj : ObjId A}
    (ht : tx.ops.objectType obj = some .list) (hp : PlainRows (tx.ops.rows obj)) {value : RValue}
    {id : Option (OpId A)} (heq : tx.beginPut obj endMarker false value false = (tx', .ok id)) :
    PlainRows (tx'.ops.rows obj) := by
  unfold beginPut at heq
  rw [slot_endMarker] at heq
  dsimp only at heq
  split at heq
  · cases heq
  · rename_i item _
    cases hput : tx.putItem obj (.pos none true) item with
    | mk tx₁ result =>
      rw [hput] at heq
      cases result with
      | error e => cases heq
      | ok id₁ =>
        cases heq
        exact plain_putItem ht hp hput
  · exact plain_putItem ht hp heq
  · rename_i initial _
    cases hput : tx.putItem obj (.pos none true) (.object .text) with
    | mk tx₁ result =>
      rw [hput] at heq
      cases result with
      | error e => cases heq
      | ok id₁ =>
        have hp₁ := plain_putItem ht hp hput
        dsimp only at heq
        split at heq
        · cases heq
          exact hp₁
        · -- the characters go into the new text
          have hput' := (makes_putItem h obj (.pos none true) .text).1 (accepts_end ht hp)
          obtain ⟨tx₂, hput₂, hc⟩ := hput'
          rw [hput] at hput₂
          cases hput₂
          have hw := writes_amSpliceText (hc.writes.fresh h) (some tx.nextId) 0 0 initial
          cases hs : tx₁.amSpliceText (some tx.nextId) 0 0 initial with
          | mk tx₂ result =>
            rw [hs] at heq hw
            cases result with
            | error e => cases heq
            | ok u =>
              cases heq
              have hrows := hw.rows obj (ne_nextId (h.made ht)).symm
                ((h.made ht).mono hc.writes.next)
              dsimp only at hrows
              rw [hrows]
              exact hp₁

/-- An element that has been stored leaves a plain list plain. -/
theorem plain_putValue {tx tx' : Tx A} (h : tx.Fresh) {obj : ObjId A}
    (ht : tx.ops.objectType obj = some .list) (hp : PlainRows (tx.ops.rows obj)) {value : RValue}
    (heq : tx.putValue obj endMarker false false value = (tx', .ok ())) :
    PlainRows (tx'.ops.rows obj) := by
  have key : ∀ {tx₁ : Tx A} {id : OpId A} {reply : Reply A RError Unit},
      tx.beginPut obj endMarker false value false = (tx₁, .ok (some id)) →
      Writes (some id) tx₁ reply.1 → reply = (tx', .ok ()) → PlainRows (tx'.ops.rows obj) := by
    rintro tx₁ id reply hb hw rfl
    obtain ⟨t, -, rfl, hc⟩ := beginPut_some h hb
    have hrows := hw.rows obj (ne_nextId (h.made ht)).symm ((h.made ht).mono hc.writes.next)
    dsimp only at hrows
    rw [hrows]
    exact plain_beginPut h ht hp hb
  have leaf : ∀ {tx₁ : Tx A} {reply : Except RError (Option (OpId A))},
      tx.beginPut obj endMarker false value false = (tx₁, reply) →
      (tx₁, reply.map fun _ => ()) = (tx', .ok ()) → PlainRows (tx'.ops.rows obj) := by
    intro tx₁ reply hb hr
    cases reply with
    | error e => cases hr
    | ok id =>
      cases hr
      exact plain_beginPut h ht hp hb
  cases value with
  | list cls xs =>
    unfold putValue at heq
    split at heq
    · rename_i tx₁ id hb
      obtain ⟨t, -, -, hc⟩ := beginPut_some h hb
      exact key hb (writes_populateList xs (hc.writes.fresh h) _) heq
    · rename_i hb
      exact leaf hb heq
  | namedList cls xs =>
    unfold putValue at heq
    split at heq
    · rename_i tx₁ id hb
      obtain ⟨t, -, -, hc⟩ := beginPut_some h hb
      exact key hb (writes_populateMap xs (hc.writes.fresh h) _) heq
    · rename_i hb
      exact leaf hb heq
  | null | logical | integer | double | character | raw | other =>
    unfold putValue at heq
    exact leaf rfl heq

/-! ## Success is storability -/

mutual

/-- A value all of whose parts can be stored is stored wherever an object is accepted. -/
theorem putValue_succeeds (value : RValue) :
    ∀ {tx : Tx A}, tx.Fresh → ∀ {obj : ObjId A} {key : RValue} {isMap forceInsert : Bool}
      {sl : Slot}, slot isMap key forceInsert = .ok sl → tx.accepts obj sl = true →
      value.storable = true → Succeeds (tx.putValue obj key isMap forceInsert value) := by
  intro tx h obj key isMap forceInsert sl hsl ha hv
  match value with
  | .list cls xs =>
    have hs : (encoding (.list cls xs)).storable = true := by
      unfold RValue.storable at hv
      split at hv
      · rename_i heq
        rw [heq]
        rfl
      · exact hv
    obtain ⟨tx₁, id, hb⟩ := beginPut_succeeds h hsl ha hs
    unfold putValue
    rw [hb]
    cases id with
    | none => exact ⟨tx₁, (), rfl⟩
    | some id =>
      obtain ⟨t, henc, rfl, hc⟩ := beginPut_some h hb
      unfold RValue.storable at hv
      rw [henc] at hv
      simp only [Bool.and_eq_true, Bool.or_eq_true, decide_eq_true_eq, List.isEmpty_iff] at hv
      rcases hv with ⟨rfl | rfl, hxs⟩
      · exact ⟨tx₁, (), rfl⟩
      · exact populateList_succeeds xs (hc.writes.fresh h) hc.objectType
          (by rw [hc.rows]; exact fun r hr => absurd hr List.not_mem_nil) hxs
  | .namedList cls xs =>
    have hs : (encoding (.namedList cls xs)).storable = true := by
      unfold RValue.storable at hv
      split at hv
      · rename_i heq
        rw [heq]
        rfl
      · exact hv
    obtain ⟨tx₁, id, hb⟩ := beginPut_succeeds h hsl ha hs
    unfold putValue
    rw [hb]
    cases id with
    | none => exact ⟨tx₁, (), rfl⟩
    | some id =>
      obtain ⟨t, henc, rfl, hc⟩ := beginPut_some h hb
      unfold RValue.storable at hv
      rw [henc] at hv
      simp only [Bool.and_eq_true, Bool.or_eq_true, decide_eq_true_eq, List.isEmpty_iff] at hv
      rcases hv with ⟨rfl | rfl, hxs⟩
      · exact ⟨tx₁, (), rfl⟩
      · exact populateMap_succeeds xs (hc.writes.fresh h) hc.objectType hxs
  | .null | .logical .. | .integer .. | .double .. | .character .. | .raw .. | .other .. =>
    unfold RValue.storable at hv
    obtain ⟨tx₁, id, hb⟩ := beginPut_succeeds h hsl ha hv
    unfold putValue
    rw [hb]
    exact ⟨tx₁, (), rfl⟩

theorem populateList_succeeds (xs : List RValue) :
    ∀ {tx : Tx A}, tx.Fresh → ∀ {obj : ObjId A}, tx.ops.objectType obj = some .list →
      PlainRows (tx.ops.rows obj) → storableList xs = true →
      Succeeds (tx.populateList obj xs) := by
  intro tx h obj ht hp hxs
  match xs with
  | [] => exact ⟨tx, (), rfl⟩
  | x :: xs =>
    unfold storableList at hxs
    rw [Bool.and_eq_true] at hxs
    obtain ⟨tx₁, u, heq⟩ :=
      putValue_succeeds x h (slot_endMarker false) (accepts_end ht hp) hxs.1
    have hw := writes_putValue x h obj endMarker false false
    rw [heq] at hw
    unfold populateList
    rw [heq]
    exact populateList_succeeds xs (hw.fresh h) ((hw.objectType obj (h.made ht)).trans ht)
      (plain_putValue h ht hp heq) hxs.2

theorem populateMap_succeeds (xs : List (RString × RValue)) :
    ∀ {tx : Tx A}, tx.Fresh → ∀ {obj : ObjId A}, tx.ops.objectType obj = some .map →
      storableNamed xs = true → Succeeds (tx.populateMap obj xs) := by
  intro tx h obj ht hxs
  match xs with
  | [] => exact ⟨tx, (), rfl⟩
  | (name, x) :: xs =>
    unfold storableNamed at hxs
    simp only [Bool.and_eq_true] at hxs
    obtain ⟨tx₁, u, heq⟩ := putValue_succeeds x h (slot_name name) (accepts_key ht hxs.1.1) hxs.1.2
    have hw := writes_putValue x h obj (.character [] [name]) true false
    rw [heq] at hw
    unfold populateMap
    rw [heq]
    exact populateMap_succeeds xs (hw.fresh h) ((hw.objectType obj (h.made ht)).trans ht) hxs.2

end

omit [LinearOrder A] in
theorem lift_ok {α : Type} {reply : Reply A OpError α} {tx' : Tx A} {a : α}
    (h : lift reply = (tx', .ok a)) : reply = (tx', .ok a) := by
  obtain ⟨tx₁, result⟩ := reply
  cases result with
  | ok a =>
    cases h
    rfl
  | error e => cases h

theorem put_map_ok {tx tx' : Tx A} {obj : ObjId A} {prop : String} {v : ScalarValue}
    {id : Option (OpId A)} (h : tx.put obj (.map prop) v = (tx', .ok id)) :
    tx.ops.objectType obj = some .map := by
  unfold put objMeta at h
  cases ht : tx.ops.objectType obj with
  | none => simp [ht] at h
  | some t => cases t <;> simp [ht] at h ⊢

theorem putObject_map_ok {tx tx' : Tx A} {obj : ObjId A} {prop : String} {t : ObjType}
    {id : Option (OpId A)} (h : tx.putObject obj (.map prop) t = (tx', .ok id)) :
    tx.ops.objectType obj = some .map := by
  unfold putObject objMeta at h
  cases ht : tx.ops.objectType obj with
  | none => simp [ht] at h
  | some t => cases t <;> simp [ht] at h ⊢

theorem insert_ok {tx tx' : Tx A} {obj : ObjId A} {index : ℕ} {action : OpType} {id : OpId A}
    (h : tx.insert obj index action = (tx', .ok id)) :
    ∃ t, tx.ops.objectType obj = some t ∧ t.isSequence = true := by
  unfold insert objMeta at h
  cases ht : tx.ops.objectType obj with
  | none => simp [ht] at h
  | some t =>
    simp only [ht] at h
    split at h
    · rename_i hs
      exact ⟨t, rfl, hs⟩
    · cases h

/-- A key only goes into a map. -/
theorem putItem_key_ok {tx tx' : Tx A} {obj : ObjId A} {key : RString} {item : Item}
    {id : Option (OpId A)} (h : tx.putItem obj (.key key) item = (tx', .ok id)) :
    tx.ops.objectType obj = some .map ∧ key.char.isSome = true ∧ item.storable = true := by
  unfold putItem at h
  cases hk : key.char with
  | none => simp [hk] at h
  | some prop =>
    simp only [hk] at h
    cases item with
    | scalar v => exact ⟨put_map_ok (lift_ok h), rfl, rfl⟩
    | object t => exact ⟨putObject_map_ok (lift_ok h), rfl, rfl⟩
    | str text =>
      unfold putProp at h
      dsimp only at h
      split at h
      · rename_i s hs
        exact ⟨put_map_ok (lift_ok h), rfl, by simp [Item.storable, hs]⟩
      · cases h

/-- A position at the end only leads into a sequence. -/
theorem putItem_end_ok {tx tx' : Tx A} {obj : ObjId A} {item : Item} {id : Option (OpId A)}
    (h : tx.putItem obj (.pos none true) item = (tx', .ok id)) :
    (∃ t, tx.ops.objectType obj = some t ∧ t.isSequence = true) ∧ item.storable = true := by
  unfold putItem at h
  simp only [adjust_end] at h
  cases hins : tx.insertItem obj (tx.ops.length obj) item with
  | mk tx₁ result =>
    rw [hins] at h
    cases result with
    | error e => cases h
    | ok id₁ =>
      cases item with
      | scalar v => exact ⟨insert_ok (lift_ok hins), rfl⟩
      | object t => exact ⟨insert_ok (lift_ok hins), rfl⟩
      | str text =>
        unfold insertItem at hins
        dsimp only at hins
        split at hins
        · rename_i s hs
          exact ⟨insert_ok (lift_ok hins), by simp [Item.storable, hs]⟩
        · cases hins

/-- Whatever the slot, only a storable item is put. -/
theorem putItem_storable {tx tx' : Tx A} {obj : ObjId A} {sl : Slot} {item : Item}
    {id : Option (OpId A)} (h : tx.putItem obj sl item = (tx', .ok id)) : item.storable = true := by
  cases item with
  | scalar v => rfl
  | object t => rfl
  | str text =>
    cases ht : text.char with
    | some s => simp [Item.storable, ht]
    | none =>
      unfold putItem at h
      cases sl with
      | key key =>
        dsimp only at h
        split at h
        · simp [putProp, ht] at h
        · cases h
      | pos pos ins =>
        dsimp only at h
        split at h
        · cases h
        · simp [insertItem, ht, Except.map] at h
        · simp [putProp, ht] at h

theorem beginPut_ok {tx tx' : Tx A} {obj : ObjId A} {key : RValue} {isMap : Bool} {value : RValue}
    {forceInsert : Bool} {r : Option (OpId A)}
    (h : tx.beginPut obj key isMap value forceInsert = (tx', .ok r)) :
    (encoding value).storable = true ∧
      ∃ sl tx₁ item id, slot isMap key forceInsert = .ok sl ∧
        tx.putItem obj sl item = (tx₁, .ok id) := by
  unfold beginPut at h
  split at h
  · cases h
  · rename_i sl hsl
    split at h
    · cases h
    · rename_i item he
      cases hput : tx.putItem obj sl item with
      | mk tx₁ result =>
        rw [hput] at h
        cases result with
        | error e => cases h
        | ok id =>
          rw [he]
          exact ⟨putItem_storable hput, sl, tx₁, item, id, hsl, hput⟩
    · rename_i t he
      rw [he]
      exact ⟨rfl, sl, tx', .object t, r, hsl, h⟩
    · rename_i initial he
      cases hput : tx.putItem obj sl (.object .text) with
      | mk tx₁ result =>
        rw [hput] at h
        cases result with
        | error e => cases h
        | ok id =>
          refine ⟨?_, sl, tx₁, _, id, hsl, hput⟩
          rw [he]
          dsimp only at h
          split at h
          · rename_i hempty
            simp [Encoding.storable, hempty]
          · unfold amSpliceText at h
            cases ht : initial.char with
            | some s => simp [Encoding.storable, ht]
            | none =>
              rw [ht] at h
              dsimp only at h
              split at h <;> cases h

theorem encoding_object {v : RValue} {t : ObjType} (h : encoding v = .object t) :
    t = .list ∨ t = .map := by
  have hn : ∀ named, nestedType v named = .list ∨ nestedType v named = .map := by
    intro named
    unfold nestedType
    split_ifs <;> simp
  unfold encoding at h
  split at h
  · split at h <;> cases h
  · split at h
    · split at h <;> cases h
    · split at h
      · split at h <;> cases h
      · split at h
        all_goals first
          | (cases h; exact hn _)
          | cases h
          | (split at h <;> first | cases h | (split at h <;> cases h))

/-- A value that is stored has put an item first. -/
theorem item_of_putValue {tx tx' : Tx A} {obj : ObjId A} {key : RValue} {isMap forceInsert : Bool}
    {value : RValue} (h : tx.putValue obj key isMap forceInsert value = (tx', .ok ())) :
    ∃ sl tx₁ item id, slot isMap key forceInsert = .ok sl ∧
      tx.putItem obj sl item = (tx₁, .ok id) := by
  cases hb : tx.beginPut obj key isMap value forceInsert with
  | mk tx₁ result =>
    cases result with
    | ok r => exact (beginPut_ok hb).2
    | error e =>
      cases value <;> (unfold putValue at h; rw [hb] at h; cases h)

/-- A list that becomes an object is populated. -/
theorem beginPut_object {tx tx' : Tx A} (h : tx.Fresh) {obj : ObjId A} {key : RValue} {isMap : Bool}
    {value : RValue} {forceInsert : Bool} {t : ObjType} {r : Option (OpId A)}
    (henc : encoding value = .object t)
    (heq : tx.beginPut obj key isMap value forceInsert = (tx', .ok r)) :
    r = some tx.nextId ∧ Created obj t tx tx' := by
  unfold beginPut at heq
  rw [henc] at heq
  split at heq
  · cases heq
  · rename_i sl _
    obtain ⟨hok, herr⟩ := makes_putItem h obj sl t
    dsimp only at heq
    cases ha : tx.accepts obj sl with
    | false =>
      obtain ⟨e, he⟩ := herr ha
      rw [he] at heq
      cases heq
    | true =>
      obtain ⟨tx₁, he, hc⟩ := hok ha
      rw [he] at heq
      cases heq
      exact ⟨rfl, hc⟩

/-- What a list with or without names has done when it is stored: it was an item, or an
object was made and populated. -/
theorem populated {tx tx' : Tx A} (h : tx.Fresh) {obj : ObjId A} {key : RValue} {isMap : Bool}
    {value : RValue} {forceInsert : Bool} (populate : Tx A → ObjId A → Reply A RError Unit)
    (heq : (match tx.beginPut obj key isMap value forceInsert with
      | (tx, .ok (some id)) => populate tx (some id)
      | (tx, reply) => (tx, reply.map fun _ => ())) = (tx', .ok ())) :
    (∃ t tx₁, encoding value = .object t ∧ Created obj t tx tx₁ ∧
        populate tx₁ (some tx.nextId) = (tx', .ok ())) ∨
      ((∀ t, encoding value ≠ .object t) ∧
        ∃ r, tx.beginPut obj key isMap value forceInsert = (tx', .ok r)) := by
  cases hb : tx.beginPut obj key isMap value forceInsert with
  | mk tx₁ result =>
    rw [hb] at heq
    cases result with
    | error e => cases heq
    | ok r =>
      by_cases ho : ∃ t, encoding value = .object t
      · obtain ⟨t, henc⟩ := ho
        obtain ⟨rfl, hc⟩ := beginPut_object h henc hb
        exact Or.inl ⟨t, tx₁, henc, hc, heq⟩
      · right
        refine ⟨fun t ht => ho ⟨t, ht⟩, r, ?_⟩
        cases r with
        | none =>
          cases heq
          rfl
        | some id =>
          obtain ⟨t, henc, -⟩ := beginPut_some h hb
          exact absurd ⟨t, henc⟩ ho

mutual

/-- What has been stored has no part that cannot be. -/
theorem storable_of_putValue (value : RValue) :
    ∀ {tx tx' : Tx A}, tx.Fresh → ∀ {obj : ObjId A} {key : RValue} {isMap forceInsert : Bool},
      tx.putValue obj key isMap forceInsert value = (tx', .ok ()) → value.storable = true := by
  intro tx tx' h obj key isMap forceInsert heq
  match value with
  | .list cls xs =>
    unfold putValue at heq
    unfold RValue.storable
    rcases populated h (fun tx id => tx.populateList id xs) heq with ⟨t, tx₁, henc, hc, hpop⟩ | ⟨hno, r, hb⟩
    · obtain ⟨htype, hxs⟩ := storable_of_populateList xs (hc.writes.fresh h) hpop
      simp only [henc, Bool.and_eq_true, Bool.or_eq_true, decide_eq_true_eq, List.isEmpty_iff]
      refine ⟨?_, hxs⟩
      by_cases hne : xs = []
      · exact Or.inl hne
      · obtain ⟨t', ht', hseq⟩ := htype hne
        cases ht'.symm.trans hc.objectType
        rcases encoding_object henc with rfl | rfl
        · exact Or.inr rfl
        · cases hseq
    · split
      · exact absurd ‹_› (hno _)
      · exact (beginPut_ok hb).1
  | .namedList cls xs =>
    unfold putValue at heq
    unfold RValue.storable
    rcases populated h (fun tx id => tx.populateMap id xs) heq with ⟨t, tx₁, henc, hc, hpop⟩ | ⟨hno, r, hb⟩
    · obtain ⟨htype, hxs⟩ := storable_of_populateMap xs (hc.writes.fresh h) hpop
      simp only [henc, Bool.and_eq_true, Bool.or_eq_true, decide_eq_true_eq, List.isEmpty_iff]
      refine ⟨?_, hxs⟩
      by_cases hne : xs = []
      · exact Or.inl hne
      · exact Or.inr (Option.some.inj (hc.objectType.symm.trans (htype hne)))
    · split
      · exact absurd ‹_› (hno _)
      · exact (beginPut_ok hb).1
  | .null | .logical .. | .integer .. | .double .. | .character .. | .raw .. | .other .. =>
    unfold putValue at heq
    unfold RValue.storable
    cases hb : tx.beginPut obj key isMap _ forceInsert with
    | mk tx₁ result =>
      rw [hb] at heq
      cases result with
      | error e => cases heq
      | ok r => exact (beginPut_ok hb).1

theorem storable_of_populateList (xs : List RValue) :
    ∀ {tx tx' : Tx A}, tx.Fresh → ∀ {obj : ObjId A}, tx.populateList obj xs = (tx', .ok ()) →
      (xs ≠ [] → ∃ t, tx.ops.objectType obj = some t ∧ t.isSequence = true) ∧
        storableList xs = true := by
  intro tx tx' h obj heq
  match xs with
  | [] => exact ⟨fun hne => absurd rfl hne, rfl⟩
  | x :: xs =>
    unfold populateList at heq
    cases hput : tx.putValue obj endMarker false false x with
    | mk tx₁ result =>
      rw [hput] at heq
      cases result with
      | error e => cases heq
      | ok u =>
        have hw := writes_putValue x h obj endMarker false false
        rw [hput] at hw
        refine ⟨fun _ => ?_, ?_⟩
        · obtain ⟨sl, tx₂, item, id, hsl, hitem⟩ := item_of_putValue hput
          cases hsl
          exact (putItem_end_ok hitem).1
        · unfold storableList
          rw [Bool.and_eq_true]
          exact ⟨storable_of_putValue x h hput,
            (storable_of_populateList xs (hw.fresh h) heq).2⟩

theorem storable_of_populateMap (xs : List (RString × RValue)) :
    ∀ {tx tx' : Tx A}, tx.Fresh → ∀ {obj : ObjId A}, tx.populateMap obj xs = (tx', .ok ()) →
      (xs ≠ [] → tx.ops.objectType obj = some .map) ∧ storableNamed xs = true := by
  intro tx tx' h obj heq
  match xs with
  | [] => exact ⟨fun hne => absurd rfl hne, rfl⟩
  | (name, x) :: xs =>
    unfold populateMap at heq
    cases hput : tx.putValue obj (.character [] [name]) true false x with
    | mk tx₁ result =>
      rw [hput] at heq
      cases result with
      | error e => cases heq
      | ok u =>
        have hw := writes_putValue x h obj (.character [] [name]) true false
        rw [hput] at hw
        obtain ⟨sl, tx₂, item, id, hsl, hitem⟩ := item_of_putValue hput
        cases hsl
        obtain ⟨ht, hn, -⟩ := putItem_key_ok hitem
        refine ⟨fun _ => ht, ?_⟩
        unfold storableNamed
        simp only [Bool.and_eq_true]
        exact ⟨⟨hn, storable_of_putValue x h hput⟩,
          (storable_of_populateMap xs (hw.fresh h) heq).2⟩

end

end Tx

end AutomergeR
