import AutomergeR.RValue
import AutomergeR.Transaction

/-! # Objects

`objects.c`, over the functions of the C library it calls: how R values are stored and
read back. Every function that writes returns the transaction, also when it raises an
error.
-/

namespace AutomergeR

open Codec

variable {A : Type}

/-- Why a call of the package raises an error. -/
inductive RError where
  /-- `Rf_error` and `stop` -/
  | stop (message : String)
  /-- an error of the library -/
  | op (error : OpError)
  | invalidPos (name : String) (pos : ℕ)
  | invalidUtf8
  /-- the library panics, which ends the R process -/
  | abort
  deriving DecidableEq

/-- What an `AMmapPut*` or `AMlistPut*` puts. -/
inductive Item where
  | scalar (value : ScalarValue)
  | str (text : RString)
  | object (objType : ObjType)

/-- Where it goes: `none` for `SIZE_MAX`. -/
inductive Slot where
  | key (key : RString)
  | pos (pos : Option ℕ) (insert : Bool)

/-- `adjust!` -/
def adjust (pos : Option ℕ) (insert : Bool) (len : ℕ) : Except RError (ℕ × Bool) :=
  let insert := insert || len = 0
  let last := if insert then len else len - 1
  match pos with
  | none => .ok (last, insert)
  | some pos => if last < pos then .error (.invalidPos "pos" pos) else .ok (pos, insert)

/-- The first part of `am_put_value`: the key or the position. -/
def slot (isMap : Bool) (key : RValue) (forceInsert : Bool) : Except RError Slot :=
  if isMap then
    match key with
    | .character _ [k] => .ok (.key k)
    | _ => .error (.stop "Map key must be a single character string")
  else
    match key with
    | .integer _ _ | .double _ _ =>
      if key.length ≠ 1 then .error (.stop "List position must be a scalar")
      else if key.asInteger < 1 then .error (.stop "List position must be positive")
      else .ok (.pos (some (key.asInteger - 1).toNat) forceInsert)
    | .character _ [k] =>
      if k.char = some "end" then .ok (.pos none true)
      else .error (.stop "List position must be numeric or \"end\"")
    | _ => .error (.stop "List position must be numeric or \"end\"")

/-- What `am_put_value` makes of a value: an object is populated afterwards. -/
inductive Encoding where
  | item (item : Item)
  | text (initial : RString)
  | object (objType : ObjType)
  | unsupported (message : String)

/-- The type of the object a list becomes. -/
def nestedType (v : RValue) (named : Bool) : ObjType :=
  if v.inherits "am_list_type" then .list
  else if v.inherits "am_map_type" then .map
  else if named then .map
  else .list

/-- The dispatch of `am_put_value`. -/
def encoding (v : RValue) : Encoding :=
  if v.inherits "POSIXct" then
    if v.length ≠ 1 then .unsupported "Timestamp must be scalar"
    else .item (.scalar (.timestamp (RValue.milliseconds v.asReal)))
  else if v.inherits "am_counter" then
    match v with
    | .integer _ [n] => .item (.scalar (.counter n.toInt))
    | _ => .unsupported "Counter must be a scalar integer"
  else if v.inherits "am_text_type" then
    match v with
    | .character _ [text] => .text text
    | _ => .unsupported "am_text must be a single character string"
  else
    match v with
    | .null => .item (.scalar .null)
    -- NA is cast to true
    | .logical _ [b] => .item (.scalar (.boolean (b.getD true)))
    | .integer _ [n] => .item (.scalar (.int n.toInt))
    | .double _ [bits] => .item (.scalar (.f64 bits))
    | .raw _ bytes => .item (.scalar (.bytes bytes))
    | .list _ _ => .object (nestedType v false)
    | .namedList _ _ => .object (nestedType v true)
    | .character _ [text] =>
      if v.inherits "am_obj_type" then
        match text.char with
        | some "list" => .item (.object .list)
        | some "map" => .item (.object .map)
        | some "text" => .item (.object .text)
        | _ => .item (.str text)
      else .item (.str text)
    | _ => .unsupported "Unsupported value type for am_put()"

/-- `Rf_mkString("end")`. -/
def endMarker : RValue := .character [] [.lit "end"]

namespace Tx

variable [LinearOrder A]

/-- A call of the library, made by the C code. -/
def lift {α : Type} : Reply A OpError α → Reply A RError α
  | (tx, .ok a) => (tx, .ok a)
  | (tx, .error e) => (tx, .error (.op e))

/-- `put` and `put_object` at a key or index. -/
def putProp (tx : Tx A) (obj : ObjId A) (prop : ObjProp) (item : Item) :
    Reply A RError (Option (OpId A)) :=
  match item with
  | .scalar v => lift (tx.put obj prop v)
  | .str text =>
    match text.char with
    | some s => lift (tx.put obj prop (.str s))
    | none => (tx, .error .invalidUtf8)
  | .object t => lift (tx.putObject obj prop t)

/-- `insert` and `insert_object`. -/
def insertItem (tx : Tx A) (obj : ObjId A) (index : ℕ) (item : Item) : Reply A RError (OpId A) :=
  match item with
  | .scalar v => lift (tx.insert obj index (.put v))
  | .str text =>
    match text.char with
    | some s => lift (tx.insert obj index (.put (.str s)))
    | none => (tx, .error .invalidUtf8)
  | .object t => lift (tx.insert obj index (.make t))

/-- `AMmapPut*` and `AMlistPut*`. -/
def putItem (tx : Tx A) (obj : ObjId A) (slot : Slot) (item : Item) :
    Reply A RError (Option (OpId A)) :=
  match slot with
  | .key key =>
    match key.char with
    | some prop => tx.putProp obj (.map prop) item
    | none => (tx, .error .invalidUtf8)
  | .pos pos insert =>
    match adjust pos insert (tx.ops.length obj) with
    | .error e => (tx, .error e)
    | .ok (index, true) =>
      let (tx, reply) := tx.insertItem obj index item
      (tx, reply.map some)
    | .ok (index, false) => tx.putProp obj (.seq index) item

/-- `AMspliceText`, whose position is checked by `clamp!`. -/
def amSpliceText (tx : Tx A) (obj : ObjId A) (pos del : ℕ) (text : RString) :
    Reply A RError Unit :=
  if tx.ops.length obj < pos then (tx, .error (.invalidPos "pos" pos))
  else
    match text.char with
    | some s => lift (tx.spliceText obj pos del s)
    | none => (tx, .error .invalidUtf8)

/-- `am_put_value` up to the elements of a list: yields the object to populate. -/
def beginPut (tx : Tx A) (obj : ObjId A) (key : RValue) (isMap : Bool) (value : RValue)
    (forceInsert : Bool) : Reply A RError (Option (OpId A)) :=
  match slot isMap key forceInsert with
  | .error e => (tx, .error e)
  | .ok slot =>
    match encoding value with
    | .unsupported message => (tx, .error (.stop message))
    | .item item =>
      let (tx, reply) := tx.putItem obj slot item
      (tx, reply.map fun _ => none)
    | .object t => tx.putItem obj slot (.object t)
    | .text initial =>
      match tx.putItem obj slot (.object .text) with
      | (tx, .error e) => (tx, .error e)
      | (tx, .ok id) =>
        if initial.char = some "" then (tx, .ok none)
        else
          let (tx, reply) := tx.amSpliceText id 0 0 initial
          (tx, reply.map fun _ => none)

mutual

/-- `am_put_value`. -/
def putValue (tx : Tx A) (obj : ObjId A) (key : RValue) (isMap forceInsert : Bool) :
    RValue → Reply A RError Unit
  | .list cls xs =>
    match tx.beginPut obj key isMap (.list cls xs) forceInsert with
    | (tx, .ok (some id)) => tx.populateList (some id) xs
    | (tx, reply) => (tx, reply.map fun _ => ())
  | .namedList cls xs =>
    match tx.beginPut obj key isMap (.namedList cls xs) forceInsert with
    | (tx, .ok (some id)) => tx.populateMap (some id) xs
    | (tx, reply) => (tx, reply.map fun _ => ())
  | value =>
    let (tx, reply) := tx.beginPut obj key isMap value forceInsert
    (tx, reply.map fun _ => ())

/-- `populate_object_from_r_list` of a list without names. -/
def populateList (tx : Tx A) (obj : ObjId A) : List RValue → Reply A RError Unit
  | [] => (tx, .ok ())
  | x :: xs =>
    match tx.putValue obj endMarker false false x with
    | (tx, .ok ()) => tx.populateList obj xs
    | (tx, .error e) => (tx, .error e)

/-- `populate_object_from_r_list` of a list with names, whatever the object is. -/
def populateMap (tx : Tx A) (obj : ObjId A) : List (RString × RValue) → Reply A RError Unit
  | [] => (tx, .ok ())
  | (name, x) :: xs =>
    match tx.putValue obj (.character [] [name]) true false x with
    | (tx, .ok ()) => tx.populateMap obj xs
    | (tx, .error e) => (tx, .error e)

end

/-- Whether `C_am_put` takes the object for a map. -/
def isMap (tx : Tx A) (obj : ObjId A) : Bool :=
  match obj, tx.ops.objectType obj with
  | none, _ => true
  | _, some .map | _, some .table => true
  | _, _ => false

/-- `C_am_put`. -/
def amPut (tx : Tx A) (obj : ObjId A) (key value : RValue) : Reply A RError Unit :=
  tx.putValue obj key (tx.isMap obj) false value

/-- `C_am_insert`. -/
def amInsert (tx : Tx A) (obj : ObjId A) (pos value : RValue) : Reply A RError Unit :=
  if tx.ops.objectType obj = some .list then tx.putValue obj pos false true value
  else (tx, .error (.stop "am_insert() can only be used on list objects"))

/-- `C_am_delete`. -/
def amDelete (tx : Tx A) (obj : ObjId A) (key : RValue) : Reply A RError Unit :=
  match key with
  | .character _ [k] =>
    match k.char with
    | some prop => lift (tx.delete obj (.map prop))
    | none => (tx, .error .invalidUtf8)
  | .integer _ _ | .double _ _ =>
    if key.length ≠ 1 then (tx, .error (.stop "List position must be a scalar"))
    else if key.asInteger < 1 then (tx, .error (.stop "List position must be positive"))
    else
      match adjust (some (key.asInteger - 1).toNat) false (tx.ops.length obj) with
      | .error e => (tx, .error e)
      | .ok (index, _) => lift (tx.delete obj (.seq index))
  | _ => (tx, .error (.stop "Key must be a character string (map) or numeric (list)"))

/-- `C_am_text_splice`. -/
def amTextSplice (tx : Tx A) (obj : ObjId A) (pos delCount text : RValue) : Reply A RError Unit :=
  if !pos.isNumeric then (tx, .error (.stop "pos must be numeric"))
  else if !delCount.isNumeric then (tx, .error (.stop "del_count must be numeric"))
  else
    match text with
    | .character _ [s] =>
      if pos.asInteger < 0 then (tx, .error (.stop "pos must be non-negative"))
      else if delCount.asInteger < 0 then (tx, .error (.stop "del_count must be non-negative"))
      else tx.amSpliceText obj pos.asInteger.toNat delCount.asInteger.toNat s
    | _ => (tx, .error (.stop "text must be a single character string"))

/-- `C_am_counter_increment`. -/
def amCounterIncrement (tx : Tx A) (obj : ObjId A) (key delta : RValue) : Reply A RError Unit :=
  if !delta.isNumeric then (tx, .error (.stop "Delta must be numeric"))
  else if delta.length ≠ 1 then (tx, .error (.stop "Delta must be scalar"))
  else if tx.isMap obj then
    match key with
    | .character _ [k] =>
      match k.char with
      | some prop =>
        let (tx, reply) := lift (tx.increment obj (.map prop) delta.asInteger)
        (tx, reply.map fun _ => ())
      | none => (tx, .error .invalidUtf8)
    | _ => (tx, .error (.stop "Map key must be a single character string"))
  else if tx.ops.objectType obj = some .list then
    if !key.isNumeric then (tx, .error (.stop "List position must be numeric"))
    else if key.length ≠ 1 then (tx, .error (.stop "List position must be scalar"))
    else if key.asInteger < 1 then
      (tx, .error (.stop "List position must be >= 1 (R uses 1-based indexing)"))
    else
      match adjust (some (key.asInteger - 1).toNat) false (tx.ops.length obj) with
      | .error e => (tx, .error e)
      | .ok (index, _) =>
        let (tx, reply) := lift (tx.increment obj (.seq index) delta.asInteger)
        (tx, reply.map fun _ => ())
  else (tx, .error (.stop "Cannot increment counter in text object"))

end Tx

/-! ## Reading -/

/-- What `am_get` yields: a value, or a handle on an object. -/
inductive Got (A : Type) where
  | value (value : RValue)
  | object (objType : Option ObjType) (id : OpId A)

namespace OpSet

variable [LinearOrder A]

/-- `am_item_to_r`. -/
def itemToR (s : OpSet A) : Value A → Except RError (Got A)
  | .object _ id => .ok (.object (s.objectType (some id)) id)
  | .scalar v =>
    match v with
    | .null => .ok (.value .null)
    | .boolean b => .ok (.value (.logical [] [some b]))
    | .int n => .ok (.value (RValue.ofInt64 [] n))
    | .uint n => .ok (.value (.double [] [Binary64.ofInt n]))
    | .f64 bits => .ok (.value (.double [] [bits]))
    | .str text =>
      if h : '\x00' ∉ text.toList then .ok (.value (.character [] [.utf8 text h]))
      else .error (.stop "embedded nul in string")
    | .bytes bytes => .ok (.value (.raw [] bytes))
    | .timestamp ms =>
      .ok (.value (.double ["POSIXct", "POSIXt"] [Binary64.scale (Binary64.ofInt ms) 1 1000]))
    | .counter n => .ok (.value (RValue.ofInt64 ["am_counter"] n))
    | .unknown _ _ => .error (.stop "Unsupported Automerge value type")

/-- `get_for` with a map key. -/
def getMap (s : OpSet A) (obj : ObjId A) (prop : String) : Except RError (Option (Value A)) :=
  match s.objectType obj with
  | some .map | some .table => .ok (s.mapGet obj prop)
  | some _ => .error (.op .invalidOp)
  | none => .error (.op .notAnObject)

/-- `get_for` with an index, and `AMlistGet`. -/
def getList (s : OpSet A) (obj : ObjId A) (pos : ℕ) : Except RError (Option (Value A)) :=
  match adjust (some pos) false (s.length obj) with
  | .error e => .error e
  | .ok (index, _) =>
    match s.objectType obj with
    | some .list | some .text => .ok (s.listGet obj index)
    | some _ => .error (.op .invalidOp)
    | none => .error (.op .notAnObject)

/-- `C_am_get`. A position that leads nowhere reads as NULL, a key of an object that is
no map is an error. -/
def amGet (s : OpSet A) (obj : ObjId A) (key : RValue) : Except RError (Got A) :=
  match key with
  | .character _ [k] =>
    match k.char with
    | none => .error .invalidUtf8
    | some prop =>
      match s.getMap obj prop with
      | .error e => .error e
      | .ok none => .ok (.value .null)
      | .ok (some v) => s.itemToR v
  | .integer _ _ | .double _ _ =>
    if key.length ≠ 1 then .error (.stop "List position must be a scalar")
    else if key.asInteger < 1 then .ok (.value .null)
    else
      match s.getList obj (key.asInteger - 1).toNat with
      | .error _ | .ok none => .ok (.value .null)
      | .ok (some v) => s.itemToR v
  | _ => .error (.stop "Key must be a character string (map) or numeric (list)")

end OpSet

end AutomergeR
