import AutomergeR.OpTypes

/-! # The op set

`op_set2/op_set.rs`: every operation of the document that is not a deletion, in
columns. The columns are cut into one list of rows per object here, in column order:
a map's rows by key and id, a sequence's in document order, each element's insertion
followed by the operations on it. Beside the operation a row has its successors (with
the amount, where the successor is an increment of a counter) and its entries in the
index columns `visible`, `top` and `text`.

A read looks at the rows of one object. `none` in place of a value is Rust's `None`.
-/

namespace AutomergeR

variable {A : Type}

/-- `Op`, with its entries in the index columns. -/
structure Row (A : Type) where
  id : OpId A
  key : Key A
  insert : Bool
  action : OpType
  /-- the operations that overwrite, delete or increment this one, with the `inc` index -/
  succ : List (OpId A × Option ℤ)
  visible : Bool
  top : Bool
  text : Option ℕ
  deriving DecidableEq

namespace Row

def elemidOrKey (r : Row A) : Key A := if r.insert then .seq (some r.id) else r.key

/-- `cursor`, the element a row of a sequence belongs to. -/
def cursor (r : Row A) : ElemId A :=
  if r.insert then some r.id
  else
    match r.key with
    | .seq e => e
    | .map _ => none

def isInc (r : Row A) : Bool := r.action.isIncrement

/-- `scope_to_clock(None)` of an operation that is no increment: no successor hides it. -/
def unhidden (r : Row A) : Bool :=
  if r.action.isCounter then r.succ.all fun s => s.2.isSome else r.succ.isEmpty

/-- `fix_counter`: a counter's value with its increments. -/
def fixedValue (r : Row A) : ScalarValue :=
  match r.action.value with
  | .counter n => .counter (r.succ.foldl (fun n s => addI64 n (s.2.getD 0)) n)
  | v => v

section

variable [LinearOrder A]

/-- `add_succ`: the new successor goes behind those with smaller ids. An increment of
anything but a counter overwrites it. -/
def addSucc (r : Row A) (s : OpId A × Option ℤ) : Row A :=
  let inc := if r.action.isCounter then s.2 else none
  let succ := r.succ.takeWhile (·.1 ≤ s.1) ++ (s.1, inc) :: r.succ.dropWhile (·.1 ≤ s.1)
  if inc.isSome then { r with succ := succ }
  else { r with succ := succ, visible := false, top := false, text := none }

end

end Row

structure OpSet (A : Type) where
  rows : ObjId A → List (Row A)
  /-- `obj_info` -/
  objInfo : List (OpId A × ObjType)

/-- What a read yields: a scalar, or an object by its id. -/
inductive Value (A : Type) where
  | object (objType : ObjType) (id : OpId A)
  | scalar (value : ScalarValue)
  deriving DecidableEq

/-- `tagged_value`, of an operation whose counter is fixed. -/
def Row.value (r : Row A) : Value A :=
  match r.action with
  | .make t => .object t r.id
  | .markBegin .. => .scalar (.str "markBegin")
  | .markEnd _ => .scalar (.str "markEnd")
  | _ => .scalar r.fixedValue

namespace OpSet

variable [LinearOrder A]

def new : OpSet A := ⟨fun _ => [], []⟩

def objectType (s : OpSet A) : ObjId A → Option ObjType
  | none => some .map
  | some id => s.objInfo.lookup id

/-! ## Maps -/

/-- The operations `seek_ops_by_map_key` finds. -/
def visibleAtKey (rows : List (Row A)) (prop : String) : List (Row A) :=
  rows.filter fun r => r.visible ∧ r.key = .map prop

/-- `get` with a map key. -/
def mapGet (s : OpSet A) (obj : ObjId A) (prop : String) : Option (Value A) :=
  match s.objectType obj with
  | some .map | some .table => ((visibleAtKey (s.rows obj) prop).getLast?).map Row.value
  | _ => none

/-- `top_ops`: of each run of operations on one key the last. -/
def topOps : List (Row A) → List (Row A)
  | [] => []
  | [r] => [r]
  | r :: next :: rows =>
    if r.elemidOrKey = next.elemidOrKey then topOps (next :: rows) else r :: topOps (next :: rows)

/-- `keys`, of a map. -/
def keys (s : OpSet A) (obj : ObjId A) : List String :=
  (topOps ((s.rows obj).filter fun r => !r.isInc && r.unhidden)).filterMap fun r =>
    match r.key with
    | .map prop => some prop
    | .seq _ => none

/-! ## Sequences -/

/-- The position of the `n`th row that satisfies `p`. -/
def nthPos (p : Row A → Bool) : ℕ → List (Row A) → Option ℕ
  | _, [] => none
  | n, r :: rows =>
    if p r then
      match n with
      | 0 => some 0
      | n + 1 => (nthPos p n rows).map (· + 1)
    else (nthPos p n rows).map (· + 1)

/-- `list_register_at_pos`: from the last insertion up to `pos` to the next one. -/
def registerStart (rows : List (Row A)) (pos : ℕ) : ℕ :=
  pos - ((rows.take (pos + 1)).reverse.takeWhile fun r => !r.insert).length

def registerEnd (rows : List (Row A)) (pos : ℕ) : ℕ :=
  pos + 1 + ((rows.drop (pos + 1)).takeWhile fun r => !r.insert).length

def register (rows : List (Row A)) (pos : ℕ) : List (Row A) :=
  (rows.take (registerEnd rows pos)).drop (registerStart rows pos)

/-- The position in the text of each row: where its characters begin. -/
def textPos (index : ℕ) : List (Row A) → Option (ℕ × ℕ)
  | [] => none
  | r :: rows =>
    let width := r.text.getD 0
    if index < width then some (0, 0)
    else (textPos (index - width) rows).map fun (pos, acc) => (pos + 1, acc + width)

/-- `OpsFound`: the index at which the element begins, its operations, and the position
behind them. -/
structure OpsFound (A : Type) where
  index : ℕ
  ops : List (Row A)
  endPos : ℕ

/-- `seek_list_ops_by_index_fast`. -/
def seekListOpsByIndex (rows : List (Row A)) (index : ℕ) : OpsFound A :=
  match nthPos (·.top) index rows with
  | some pos => ⟨index, (register rows pos).filter (·.visible), registerEnd rows pos⟩
  | none => ⟨index, [], rows.length⟩

/-- The loop of `seek_text_ops_by_index_fast`, from the found row on: the operations
that have no successor, up to the next insertion behind one of them. -/
def textOps : List (Row A) → ℕ → List (Row A) → List (Row A) × ℕ
  | [], pos, ops => (ops, pos)
  | r :: rows, pos, ops =>
    if r.insert && !ops.isEmpty then (ops, pos)
    else textOps rows (pos + 1) (if r.succ.isEmpty && !r.action.isMark then ops ++ [r] else ops)

/-- `seek_text_ops_by_index_fast`. -/
def seekTextOpsByIndex (rows : List (Row A)) (index : ℕ) : OpsFound A :=
  match textPos index rows with
  | some (pos, acc) =>
    let (ops, endPos) := textOps (rows.drop pos) pos []
    ⟨acc, ops, endPos⟩
  | none => ⟨index, [], rows.length⟩

/-- `seek_ops_by_index`. -/
def seekOpsByIndex (objType : ObjType) (rows : List (Row A)) (index : ℕ) : OpsFound A :=
  if objType = .text then seekTextOpsByIndex rows index else seekListOpsByIndex rows index

/-- `get` with an index. -/
def listGet (s : OpSet A) (obj : ObjId A) (index : ℕ) : Option (Value A) :=
  match s.objectType obj with
  | some .list => ((seekOpsByIndex .list (s.rows obj) index).ops.getLast?).map Row.value
  | some .text => ((seekOpsByIndex .text (s.rows obj) index).ops.getLast?).map Row.value
  | _ => none

/-! ## Lengths and texts -/

/-- The elements, or with `seen` the further elements, that have a visible row. An
element is counted at its first visible row. -/
def countElems : List (Row A) → (seen : Bool) → ℕ
  | [], _ => 0
  | r :: rows, seen =>
    let seen := seen && !r.insert
    if r.visible && !seen then countElems rows true + 1 else countElems rows seen

/-- The keys with a visible row. -/
def countKeys : List (Row A) → (last : Option (Key A)) → ℕ
  | [], _ => 0
  | r :: rows, last =>
    if r.visible then (if last = some r.key then 0 else 1) + countKeys rows (some r.key)
    else countKeys rows last

/-- `length_for` and `seq_length`. -/
def length (s : OpSet A) (obj : ObjId A) : ℕ :=
  match s.objectType obj with
  | some .text => (((s.rows obj).filter (·.visible)).map fun r => r.text.getD 0).sum
  | some .list => countElems (s.rows obj) false
  | some .map | some .table => countKeys (s.rows obj) none
  | none => 0

/-- `text`. -/
def text (s : OpSet A) (obj : ObjId A) : String :=
  (((s.rows obj).filter (·.visible)).map fun r => r.action.asStr).foldl (· ++ ·) ""

end OpSet

end AutomergeR
