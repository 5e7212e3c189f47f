import AutomergeR.Objects

/-! # Reading a document

`C_am_keys`, `C_am_values` and the `as.list` methods. The names and the values of a map are
read by two calls; a value that is an object is read in turn. The recursion is on the depth
down to which objects are read.
-/

namespace AutomergeR

variable {A : Type} [LinearOrder A]

/-- `Rf_mkCharLen`, which refuses a NUL. -/
def mkChar (text : String) : Except RError RString :=
  if h : '\x00' ∉ text.toList then .ok (.utf8 text h) else .error (.stop "embedded nul in string")

/-- `names(result) <- keys`: names that lack are NA. -/
def setNames (result : List RValue) (keys : List RString) : Except RError RValue :=
  if result.length < keys.length then
    .error (.stop "'names' attribute must be the same length as the vector")
  else .ok (.namedList [] ((keys ++ List.replicate (result.length - keys.length) RString.na).zip result))

namespace OpSet

/-- `C_am_keys`, of a map. -/
def amKeys (s : OpSet A) (obj : ObjId A) : Except RError (List RString) :=
  (s.keys obj).mapM mkChar

/-- The value `C_am_values` stores for an entry: where the library reports an error the
NULL that is there stays, and where it finds nothing the item is void. -/
def entryToR (s : OpSet A) : Except RError (Option (Value A)) → Except RError (Got A)
  | .error _ => .ok (.value .null)
  | .ok none => .error (.stop "Unsupported Automerge value type")
  | .ok (some v) => s.itemToR v

/-- `C_am_values`, of a list or a map: a vector of the object's length, filled from the
front. -/
def amValues (s : OpSet A) (obj : ObjId A) : Except RError (List (Got A)) :=
  if s.objectType obj = some .list then
    (List.range (s.length obj)).mapM fun i => s.entryToR (s.getList obj i)
  else do
    let values ← ((s.keys obj).take (s.length obj)).mapM fun key => s.entryToR (s.getMap obj key)
    .ok (values ++ List.replicate (s.length obj - values.length) (.value .null))

/-- `C_am_text_get`. -/
def amTextGet (s : OpSet A) (obj : ObjId A) : Except RError RValue := do
  let text ← mkChar (s.text obj)
  .ok (.character [] [text])

/-- `as.list.am_map`, and `as.list.am_doc` for the root. -/
def asListMap (s : OpSet A) (read : Got A → Except RError RValue) (obj : ObjId A) :
    Except RError RValue := do
  let keys ← s.amKeys obj
  let values ← s.amValues obj
  let result ← values.mapM read
  setNames result keys

/-- `as.list.am_list`. -/
def asListList (s : OpSet A) (read : Got A → Except RError RValue) (obj : ObjId A) :
    Except RError RValue := do
  let values ← s.amValues obj
  let result ← values.mapM read
  .ok (.list [] result)

/-- A value as it is, an object by its `as.list` method. -/
def asList (s : OpSet A) : ℕ → Got A → Except RError RValue
  | _, .value v => .ok v
  | 0, .object _ _ => .error .abort
  | depth + 1, .object objType id =>
    match objType with
    | some .map => s.asListMap (s.asList depth) (some id)
    | some .list => s.asListList (s.asList depth) (some id)
    | some .text => s.amTextGet (some id)
    | _ => .error (.stop "cannot coerce type 'externalptr' to vector of type 'list'")

/-- `from_automerge` -/
def fromAutomerge (s : OpSet A) (depth : ℕ) : Except RError RValue :=
  s.asListMap (s.asList depth) none

end OpSet

end AutomergeR
