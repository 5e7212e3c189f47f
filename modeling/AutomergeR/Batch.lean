import Mathlib.Data.List.Sort
import AutomergeR.Transaction

/-! # Applying a batch

`op_set2/change/batch.rs`: how the operations of other documents get into the columns. The
operations of a batch are put in order object by object, and walked through together with
the object's rows. A map's rows and operations are merged by key and id; in a sequence the
new elements are untangled from the tree of their references.

The code keeps `Top` while it walks and resets it between two keys or two elements. Here a
walk yields what it passes key by key or element by element, and `Top` runs over that.
-/

namespace AutomergeR

variable {A : Type}

/-- `ChangeOp`, an operation of the batch with its successors in the batch. -/
structure ChangeOp (A : Type) where
  id : OpId A
  op : Op A
  succ : List (OpId A × Option ℤ)
  deriving DecidableEq

namespace ChangeOp

def insert (c : ChangeOp A) : Bool := c.op.insert

def elemidOrKey (c : ChangeOp A) : Key A := if c.op.insert then .seq (some c.id) else c.op.key

def hasSucc (c : ChangeOp A) : Bool := c.succ.any fun s => s.2.isNone

def visible (c : ChangeOp A) : Bool :=
  !(c.op.action.isIncrement || c.op.action = .delete || c.hasSucc)

/-- Its row. -/
def toRow (c : ChangeOp A) (conflicted : Bool) : Row A :=
  { id := c.id, key := c.op.key, insert := c.op.insert, action := c.op.action, succ := c.succ
    visible := c.visible, top := !conflicted && c.visible
    text := some (if c.visible then c.op.action.width else 0) }

end ChangeOp

/-- What a walk passes: a row with what the batch has for its successors, or an operation
of the batch. -/
inductive Entry (A : Type) where
  | doc (r : Row A) (preds : List (OpId A × Option ℤ))
  | change (c : ChangeOp A)

/-- `Top`, with ids for positions. -/
inductive Top (A : Type) where
  | nothing
  | changeIndex (id : OpId A)
  | doc (id : OpId A)
  | expose (id : OpId A)

/-- `Top`, the operations marked as conflicted, and the rows to adjust. -/
structure Tops (A : Type) where
  top : Top A
  conflicted : List (OpId A)
  conflicts : List (OpId A)
  exposed : List (OpId A)

namespace Tops

def start : Tops A := ⟨.nothing, [], [], []⟩

/-- `Top::process_doc_op` and `Top::process_change_op`. An increment does not delete. -/
def process (t : Tops A) : Entry A → Tops A
  | .doc r preds =>
    if !r.isInc && r.unhidden then
      if preds.any fun s => s.2.isNone then
        match t.top with
        | .doc id => { t with top := .expose id }
        | _ => t
      else
        match t.top with
        | .changeIndex id => { t with top := .doc r.id, conflicted := t.conflicted ++ [id] }
        | _ => { t with top := .doc r.id }
    else t
  | .change c =>
    if c.visible then
      match t.top with
      | .changeIndex id => { t with top := .changeIndex c.id, conflicted := t.conflicted ++ [id] }
      | .doc id => { t with top := .changeIndex c.id, conflicts := t.conflicts ++ [id] }
      | _ => { t with top := .changeIndex c.id }
    else t

/-- `Top::reset`. -/
def reset (t : Tops A) : Tops A :=
  match t.top with
  | .expose id => { t with top := .nothing, exposed := t.exposed ++ [id] }
  | _ => { t with top := .nothing }

end Tops

variable [LinearOrder A]

namespace Tops

/-- `conflict` and `expose`. -/
def adjust (t : Tops A) (r : Row A) : Row A :=
  let r := if t.conflicts.contains r.id then { r with top := false } else r
  if t.exposed.contains r.id then { r with top := true } else r

/-- The row adjusted and with its new successors, or the row of an operation, which a
deletion does not have. -/
def row (t : Tops A) : Entry A → Option (Row A)
  | .doc r preds => some (preds.foldl Row.addSucc (t.adjust r))
  | .change c =>
    if c.op.action = .delete then none else some (c.toRow (t.conflicted.contains c.id))

end Tops

/-- The operations on one key or one element: walked through, or those of a new element. -/
inductive Register (A : Type) where
  | walked (es : List (Entry A))
  | fresh (ops : List (ChangeOp A))

namespace Register

def changes : Register A → List (ChangeOp A)
  | .walked es => es.filterMap fun
    | .doc _ _ => none
    | .change c => some c
  | .fresh ops => ops

/-- The new rows. On a new element all values but the last are in conflict. -/
def rows : Register A → List (Row A)
  | .walked es => es.filterMap (es.foldl Tops.process .start).reset.row
  | .fresh ops =>
    let vis := (ops.filter fun c => c.op.action.isSetOrMake && !c.hasSucc).map ChangeOp.id
    ops.filterMap fun c => Tops.row ⟨.nothing, vis.dropLast, [], []⟩ (.change c)

end Register

/-! ## Order and predecessors -/

/-- `partial_cmp` of the keys, and `cmp` of the ids where it does not decide. -/
def keyLE (a b : ChangeOp A) : Bool :=
  match a.elemidOrKey, b.elemidOrKey with
  | .map p, .map q => p < q ∨ p = q ∧ a.id ≤ b.id
  | .seq none, .seq (some _) => true
  | .seq (some _), .seq none => false
  | .seq (some e), .seq (some f) => e < f ∨ e = f ∧ a.id ≤ b.id
  | _, _ => a.id ≤ b.id

/-- `PredCache`: what of the batch names `id` as a predecessor. -/
def predsOf (ops : List (ChangeOp A)) (id : OpId A) : List (OpId A × Option ℤ) :=
  ops.flatMap fun c =>
    (c.op.pred.filter (· = id)).map fun _ => (c.id, c.op.action.getIncrementValue)

/-- `order_ops_for_doc`, for one object: the batch in the order of the columns, each
operation with the successors it has there. -/
def orderOps (batch : List (OpId A × Op A)) (obj : ObjId A) : List (ChangeOp A) :=
  let ops := (batch.filter fun p => p.2.obj = obj).map fun p => ⟨p.1, p.2, []⟩
  let ops := ops.insertionSort fun a b => keyLE a b
  ops.map fun c => { c with succ := predsOf ops c.id }

/-! ## Maps -/

/-- Whether a row stays behind the operation in `advance_doc_op`. -/
def Row.behind (r : Row A) (c : ChangeOp A) : Bool :=
  match r.key, c.op.key with
  | .map p, .map q => q < p ∨ p = q ∧ c.id < r.id
  | _, _ => false

/-- `walk_map`: what is passed, and the rows it does not get to. -/
def mergeMap (ops : List (ChangeOp A)) :
    List (Row A) → (key : Option (Key A)) → List (ChangeOp A) → List (Entry A) × List (Row A)
  | rows, key, [] =>
    ((rows.takeWhile fun r => some r.key = key).map fun r => .doc r (predsOf ops r.id),
      rows.dropWhile fun r => some r.key = key)
  | rows, _, c :: cs =>
    let passed := rows.takeWhile fun r => !r.behind c
    let (es, rest) := mergeMap ops (rows.dropWhile fun r => !r.behind c) (some c.op.key) cs
    (passed.map (fun r => .doc r (predsOf ops r.id)) ++ .change c :: es, rest)

def Entry.key : Entry A → Key A
  | .doc r _ => r.key
  | .change c => c.op.key

/-- The keys one after the other. -/
def mapRegisters (es : List (Entry A)) : List (Register A) :=
  (es.splitBy fun a b => a.key = b.key).map .walked

/-! ## Sequences -/

/-- The operations on the element that `c` inserts, which follow it in the batch. -/
def followers (ops : List (ChangeOp A)) (c : ChangeOp A) : List (ChangeOp A) :=
  ((ops.dropWhile fun o => o.id ≠ c.id).drop 1).takeWhile fun o =>
    !o.insert && o.op.key = .seq (some c.id)

/-- The insertions that refer to an element, or to the head. -/
def insertsAt (ops : List (ChangeOp A)) (e : ElemId A) : List (ChangeOp A) :=
  ops.filter fun o => o.insert && o.op.key = .seq e

/-- `updates`: the operations on an element of the document. -/
def updatesOf (ops : List (ChangeOp A)) (id : OpId A) : List (ChangeOp A) :=
  ops.filter fun o => !o.insert && o.op.key = .seq (some id)

/-- `untangle_inner` until the stack is down to `n`. Every round places an operation of the
batch. -/
def untangleTo (ops : List (ChangeOp A)) (n : ℕ) :
    ℕ → List (ChangeOp A) → List (Register A) × List (ChangeOp A)
  | 0, stack => ([], stack)
  | _ + 1, [] => ([], [])
  | fuel + 1, c :: stack =>
    if stack.length < n then ([], c :: stack)
    else
      let (rs, stack) := untangleTo ops n fuel ((insertsAt ops (some c.id)).reverse ++ stack)
      (.fresh (c :: followers ops c) :: rs, stack)

/-- The rows before the first insertion, and each insertion with the rows behind it. -/
def elements : List (Row A) → List (Row A) × List (Row A × List (Row A))
  | [] => ([], [])
  | r :: rows =>
    let (rest, els) := elements rows
    if r.insert then ([], (r, rest) :: els) else (r :: rest, els)

/-- `element_update` and `finish_updates`: the operations on an element among its rows. -/
def mergeElement (ops : List (ChangeOp A)) : List (ChangeOp A) → List (Row A) → List (Entry A)
  | updates, [] => updates.map .change
  | updates, r :: rows =>
    (updates.takeWhile fun c => c.id < r.id).map .change ++ .doc r (predsOf ops r.id) ::
      mergeElement ops (updates.dropWhile fun c => c.id < r.id) rows

/-- `walk_list`: before each element the stack is untangled down to what has a smaller id. -/
def walkList (ops : List (ChangeOp A)) :
    List (Row A × List (Row A)) → (stack : List (ChangeOp A)) → List (Register A)
  | [], stack => (untangleTo ops 0 ops.length stack).1
  | (r, rest) :: els, stack =>
    let (rs, stack) := untangleTo ops (stack.countP fun c => c.id < r.id) ops.length stack
    rs ++ .walked (.doc r (predsOf ops r.id) :: mergeElement ops (updatesOf ops r.id) rest) ::
      walkList ops els ((insertsAt ops (some r.id)).reverse ++ stack)

def listRegisters (ops : List (ChangeOp A)) (rows : List (Row A)) : List (Register A) :=
  let (before, els) := elements rows
  .walked (before.map fun r => .doc r (predsOf ops r.id)) ::
    walkList ops els (insertsAt ops none).reverse

/-! ## The batch -/

/-- One round of `apply`. The code panics when an operation of a sequence is placed twice
or has no place. -/
def applyObj (objType : Option ObjType) (ops : List (ChangeOp A)) (rows : List (Row A)) :
    Option (List (Row A)) :=
  match objType with
  | some .map =>
    let (es, rest) := mergeMap ops rows none ops
    some ((mapRegisters es).flatMap Register.rows ++ rest)
  | some .list | some .text =>
    let registers := listRegisters ops rows
    if (registers.flatMap Register.changes).Perm ops then some (registers.flatMap Register.rows)
    else none
  | _ => none

/-- The `obj_info` with the objects that the batch makes. -/
def OpSet.withMade (s : OpSet A) (batch : List (OpId A × Op A)) : OpSet A :=
  { s with objInfo :=
      (batch.filterMap fun p => p.2.action.objType?.map fun t => (p.1, t)) ++ s.objInfo }

/-- `BatchApply::apply`. -/
def OpSet.applyBatch (s : OpSet A) (batch : List (OpId A × Op A)) : Option (OpSet A) :=
  let s := s.withMade batch
  let walk obj := applyObj (s.objectType obj) (orderOps batch obj) (s.rows obj)
  if batch.all fun p => (walk p.2.obj).isSome then
    some { s with
      rows := fun obj =>
        if batch.any fun p => p.2.obj = obj then (walk obj).getD [] else s.rows obj }
  else none

/-- A merge: the open transaction is committed and the batch is applied, and the next
transaction begins behind both. -/
def Tx.merge (tx : Tx A) (batch : List (OpId A × Op A)) : Option (Tx A) :=
  (tx.ops.applyBatch batch).map fun ops =>
    { ops := ops, actor := tx.actor, pending := []
      startOp := (batch.map fun p => p.1.counter + 1).foldl max (tx.startOp + tx.pending.length) }

end AutomergeR
