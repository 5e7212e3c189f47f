import AutomergeR.OpSet

/-! # Local operations

`transaction/inner.rs` and `op_set/insert.rs`: what a transaction does to the op set,
one call after another. A failed call leaves behind what it has done so far, which is
why every call returns the transaction.
-/

namespace AutomergeR

variable {A : Type}

/-- The errors of the local operations. -/
inductive OpError where
  | invalidOp
  | invalidIndex (index : ℕ)
  | missingCounter
  | notAnObject
  deriving DecidableEq

/-- An open transaction of `actor`, with the op set it works on. -/
structure Tx (A : Type) where
  ops : OpSet A
  actor : A
  startOp : ℕ
  pending : List (Op A)

/-- The transaction after a call, and what the call returned. -/
abbrev Reply (A E α : Type) := Tx A × Except E α

namespace Tx

/-- The first transaction of a new document. -/
def new (actor : A) : Tx A := ⟨⟨fun _ => [], []⟩, actor, 1, []⟩

/-- `next_id`. -/
def nextId (tx : Tx A) : OpId A := .new (tx.startOp + tx.pending.length) tx.actor

section

variable [LinearOrder A]

def setRows (tx : Tx A) (obj : ObjId A) (rows : List (Row A)) : Tx A :=
  { tx with ops := { tx.ops with rows := Function.update tx.ops.rows obj rows } }

/-- The row of a local operation: visible at once, unless it is an increment. -/
def row (id : OpId A) (op : Op A) : Row A :=
  { id := id, key := op.key, insert := op.insert, action := op.action, succ := []
    visible := !op.action.isIncrement, top := !op.action.isIncrement
    text := some op.action.width }

/-- `splice` at `pos`, which leaves deletions out, and `pending.push`. -/
def splice (tx : Tx A) (pos : ℕ) (op : Op A) : Tx A :=
  let rows := tx.ops.rows op.obj
  let added := if op.action = .delete then [] else [row tx.nextId op]
  let objInfo :=
    match op.action.objType? with
    | some t => (tx.nextId, t) :: tx.ops.objInfo
    | none => tx.ops.objInfo
  { tx with
    ops := { rows := Function.update tx.ops.rows op.obj (rows.take pos ++ added ++ rows.drop pos)
             objInfo := objInfo }
    pending := tx.pending ++ [op] }

/-- The rows, those of the operations in `ids` with one successor more. -/
abbrev succRows (rows : List (Row A)) (ids : List (OpId A)) (s : OpId A × Option ℤ) :
    List (Row A) :=
  rows.map fun r => if r.id ∈ ids then r.addSucc s else r

/-- `add_succ` for the operations in `ops`. -/
def addSuccs (tx : Tx A) (obj : ObjId A) (ids : List (OpId A)) (s : OpId A × Option ℤ) : Tx A :=
  tx.setRows obj (succRows (tx.ops.rows obj) ids s)

/-- `expose`. -/
def expose (tx : Tx A) (obj : ObjId A) (id : OpId A) : Tx A :=
  tx.setRows obj ((tx.ops.rows obj).map fun r => if r.id = id then { r with top := true } else r)

/-! ## Overwriting, deleting and incrementing -/

/-- `resolve_action`: a put of the value that is there already only deletes the values
that lose against it, and does nothing when there are none; a deletion of nothing does
nothing. -/
def resolveAction (ops : List (Row A)) (action : OpType) : Option (List (Row A) × OpType) :=
  match ops.getLast?, action with
  | some op, .put v =>
    if op.action.isSetOrMake && op.action.objType? = none && op.fixedValue.eq v then
      if ops.length = 1 then none else some (ops.dropLast, .delete)
    else some (ops, action)
  | none, .delete => none
  | _, _ => some (ops, action)

/-- The common part of `local_map_op` and `local_list_op`, from the operations found
on. -/
def localOp (tx : Tx A) (obj : ObjId A) (key : Key A) (found : OpSet.OpsFound A)
    (action : OpType) : Reply A OpError (Option (OpId A) × List (Row A)) :=
  match resolveAction found.ops action with
  | none => (tx, .ok (none, []))
  | some (ops, action) =>
    if action.isIncrement && ops.all fun op => !op.action.isCounter then
      (tx, .error .missingCounter)
    else
      let id := tx.nextId
      let pred := ops.map Row.id
      let tx := tx.splice found.endPos
        { obj := obj, key := key, insert := false, action := action, pred := pred }
      (tx.addSuccs obj pred (id, action.getIncrementValue), .ok (some id, ops))

/-- The end of the operations on one key: rows are sorted by key. -/
def keyEnd (rows : List (Row A)) (prop : String) : ℕ :=
  (rows.takeWhile fun r =>
    match r.key with
    | .map p => p ≤ prop
    | .seq _ => true).length

def localMapOp (tx : Tx A) (obj : ObjId A) (prop : String) (action : OpType) :
    Reply A OpError (Option (OpId A)) :=
  let rows := tx.ops.rows obj
  let found := ⟨0, OpSet.visibleAtKey rows prop, keyEnd rows prop⟩
  let (tx, reply) := tx.localOp obj (.map prop) found action
  (tx, reply.map Prod.fst)

/-- An increment that hides conflicting values exposes the last counter among them. -/
def exposeCounter (tx : Tx A) (obj : ObjId A) (action : OpType) (ops : List (Row A)) : Tx A :=
  if action.isIncrement then
    match ops.reverse.findIdx? (·.action.isCounter), ops.reverse.find? (·.action.isCounter) with
    | some i, some op => if 0 < i then tx.expose obj op.id else tx
    | _, _ => tx
  else tx

def localListOp (tx : Tx A) (obj : ObjId A) (objType : ObjType) (index : ℕ) (action : OpType) :
    Reply A OpError (Option (OpId A)) :=
  let found := OpSet.seekOpsByIndex objType (tx.ops.rows obj) index
  match found.ops.head? with
  | none => (tx, .error (.invalidIndex index))
  | some first =>
    match tx.localOp obj (.seq first.cursor) found action with
    | (tx, .ok (id, ops)) => (tx.exposeCounter obj action ops, .ok id)
    | (tx, .error e) => (tx, .error e)

/-- `Prop`. -/
inductive ObjProp where
  | map (prop : String)
  | seq (index : ℕ)
  deriving DecidableEq

/-- `exid_to_obj`. -/
def objMeta (tx : Tx A) (obj : ObjId A) : Option ObjType := tx.ops.objectType obj

def localObjOp (tx : Tx A) (obj : ObjId A) (objType : ObjType) (prop : ObjProp) (action : OpType) :
    Reply A OpError (Option (OpId A)) :=
  match prop with
  | .map p => tx.localMapOp obj p action
  | .seq i =>
    if objType.isSequence then tx.localListOp obj objType i action else (tx, .error .invalidOp)

def put (tx : Tx A) (obj : ObjId A) (prop : ObjProp) (value : ScalarValue) :
    Reply A OpError (Option (OpId A)) :=
  match tx.objMeta obj, prop with
  | none, _ => (tx, .error .notAnObject)
  | some .map, .map _ => tx.localObjOp obj .map prop (.put value)
  | some .list, .seq _ => tx.localObjOp obj .list prop (.put value)
  | some .text, .seq _ => tx.localObjOp obj .text prop (.put value)
  | some _, _ => (tx, .error .invalidOp)

def putObject (tx : Tx A) (obj : ObjId A) (prop : ObjProp) (value : ObjType) :
    Reply A OpError (Option (OpId A)) :=
  match tx.objMeta obj, prop with
  | none, _ => (tx, .error .notAnObject)
  | some .map, .map _ => tx.localObjOp obj .map prop (.make value)
  | some .list, .seq _ => tx.localObjOp obj .list prop (.make value)
  | some _, _ => (tx, .error .invalidOp)

def increment (tx : Tx A) (obj : ObjId A) (prop : ObjProp) (n : ℤ) :
    Reply A OpError (Option (OpId A)) :=
  match tx.objMeta obj with
  | none => (tx, .error .notAnObject)
  | some objType => tx.localObjOp obj objType prop (.increment n)

/-! ## Inserting -/

/-- `Loc`: a place an insertion can go to. -/
structure Loc (A : Type) where
  cursor : ElemId A
  pos : ℕ
  id : Option (OpId A)

/-- The running state of an `InsertQuery`; the latest candidate is the first of the
list. -/
structure InsertQuery (A : Type) where
  index : ℕ
  lastWidth : Option ℕ
  done : Bool
  pos : ℕ
  candidates : List (Loc A)
  lastVisibleCursor : Option (ElemId A)

/-- `QueryNth`. -/
structure QueryNth (A : Type) where
  pos : ℕ
  index : ℕ
  elemid : ElemId A

namespace InsertQuery

/-- Drop the candidates from the mark that `id` ends on. -/
def closeMark (candidates : List (Loc A)) (id : OpId A) : Option (List (Loc A)) :=
  match candidates.reverse.findIdx? (·.id = some id.prev) with
  | some i => some (candidates.drop (candidates.length - i))
  | none => none

/-- `identify_valid_insertion_spot`. -/
def identify (q : InsertQuery A) (r : Row A) (pos : ℕ) : InsertQuery A :=
  let candidates :=
    match r.insert && q.candidates.isEmpty, q.lastVisibleCursor with
    | true, some cursor => [⟨cursor, pos, none⟩]
    | _, _ => q.candidates
  let pushed : List (Loc A) := ⟨r.cursor, pos + 1, some r.id⟩ :: candidates
  if candidates.isEmpty then { q with candidates := candidates }
  else
    match r.action with
    | .markEnd expand =>
      match closeMark candidates r.id with
      | some candidates => { q with candidates := candidates }
      | none => { q with candidates := if expand then candidates else pushed }
    | .markBegin true _ _ => { q with candidates := pushed }
    | _ => { q with candidates := candidates }

/-- One round of the loop in `resolve`, for the row at `pos`; the flag says to stop. An
increment is passed over without a trace. -/
def step (objType : ObjType) (target : ℕ) (q : InsertQuery A) (r : Row A) (pos : ℕ) :
    InsertQuery A × Bool :=
  if r.isInc then (q, false)
  else
    let q :=
      match r.insert, q.lastWidth with
      | true, some w =>
        { q with index := q.index + w, lastWidth := none, done := target ≤ q.index + w }
      | _, _ => q
    if q.done then
      let q := q.identify r pos
      if r.unhidden && !r.action.isMark && !q.candidates.isEmpty then (q, true)
      else ({ q with pos := pos }, false)
    else if r.unhidden && !r.action.isMark then
      ({ q with
         lastVisibleCursor := some r.cursor
         lastWidth := some (if objType = .text then r.action.width else 1)
         pos := pos }, false)
    else ({ q with pos := pos }, false)

def loop (objType : ObjType) (target : ℕ) : InsertQuery A → List (Row A) → ℕ → InsertQuery A
  | q, [], _ => q
  | q, r :: rows, pos =>
    match q.step objType target r pos with
    | (q, true) => q
    | (q, false) => loop objType target q rows (pos + 1)

/-- The end of `resolve`. -/
def finish (target : ℕ) (q : InsertQuery A) : Option (QueryNth A) :=
  let index := q.index + q.lastWidth.getD 0
  let done := if q.lastWidth.isSome then decide (target ≤ index) else q.done
  if !done then none
  else
    match q.candidates, q.lastVisibleCursor with
    | loc :: _, _ => some ⟨loc.pos, index, loc.cursor⟩
    | [], some cursor => some ⟨q.pos + 1, index, cursor⟩
    | [], none => none

/-- `InsertQuery::new` on the rows from `start` on, and `resolve(index)`. -/
def resolve (objType : ObjType) (rows : List (Row A)) (start target index : ℕ) :
    Option (QueryNth A) :=
  let q : InsertQuery A :=
    { index := index, lastWidth := none, done := target ≤ index, pos := start
      candidates := if target = 0 then [⟨none, start, none⟩] else []
      lastVisibleCursor := none }
  (q.loop objType target (rows.drop start) start).finish target

end InsertQuery

/-- `query_insert_at`: where the index columns lead, else from the beginning. -/
def queryInsertAt (objType : ObjType) (rows : List (Row A)) (index : ℕ) : Option (QueryNth A) :=
  let fast :=
    if index = 0 then none
    else if objType = .text then
      match OpSet.textPos (index - 1) rows with
      | some (pos, acc) => InsertQuery.resolve objType rows pos index acc
      | none => none
    else
      let start := (OpSet.nthPos (·.top) (index - 1) rows).getD rows.length
      InsertQuery.resolve objType rows start index (index - 1)
  match fast with
  | some query => some query
  | none => InsertQuery.resolve objType rows 0 index 0

def doInsert (tx : Tx A) (obj : ObjId A) (objType : ObjType) (index : ℕ) (action : OpType) :
    Reply A OpError (OpId A) :=
  match queryInsertAt objType (tx.ops.rows obj) index with
  | none => (tx, .error (.invalidIndex index))
  | some query =>
    (tx.splice query.pos
      { obj := obj, key := .seq query.elemid, insert := true, action := action, pred := [] },
      .ok tx.nextId)

/-- `insert` and `insert_object`. -/
def insert (tx : Tx A) (obj : ObjId A) (index : ℕ) (action : OpType) : Reply A OpError (OpId A) :=
  match tx.objMeta obj with
  | none => (tx, .error .notAnObject)
  | some objType =>
    if objType.isSequence then tx.doInsert obj objType index action
    else (tx, .error .invalidOp)

/-! ## Texts -/

/-- The insertions of `inner_splice`, one character behind the other. -/
def insertChars (tx : Tx A) (obj : ObjId A) : (pos : ℕ) → ElemId A → List Char → Tx A
  | _, _, [] => tx
  | pos, elemid, c :: chars =>
    (tx.splice pos
      { obj := obj, key := .seq elemid, insert := true, action := .put (.str (String.ofList [c])),
        pred := [] }).insertChars obj (pos + 1) (some tx.nextId) chars

/-- The deletions of `inner_splice`: whole elements, until `del` characters are gone or
there are none left. An index in the middle of an element goes on to the next one. -/
def deleteChars (obj : ObjId A) : (fuel : ℕ) → Tx A → (index deleted del : ℕ) → Tx A
  | 0, tx, _, _, _ => tx
  | fuel + 1, tx, index, deleted, del =>
    if del ≤ deleted then tx
    else
      let found := OpSet.seekTextOpsByIndex (tx.ops.rows obj) index
      match found.ops.getLast? with
      | none => tx
      | some last =>
        let step := last.action.width
        if found.index < index then deleteChars obj fuel tx (found.index + step) deleted del
        else
          let id := tx.nextId
          let pred := found.ops.map Row.id
          let tx := tx.splice found.endPos
            { obj := obj, key := .seq last.cursor, insert := false, action := .delete, pred := pred }
          deleteChars obj fuel (tx.addSuccs obj pred (id, none)) index (deleted + step) del

/-- `inner_splice` of a text. The fuel is more than the deletions can use. -/
def innerSplice (tx : Tx A) (obj : ObjId A) (index del : ℕ) (text : String) :
    Reply A OpError Unit :=
  match text.toList with
  | [] =>
    (deleteChars obj (2 * (tx.ops.rows obj).length + 2) tx index 0 del, .ok ())
  | c :: chars =>
    match queryInsertAt .text (tx.ops.rows obj) index with
    | none => (tx, .error (.invalidIndex index))
    | some query =>
      let tx := tx.insertChars obj query.pos query.elemid (c :: chars)
      (deleteChars obj (2 * (tx.ops.rows obj).length + 2) tx
        (query.index + (c :: chars).length) 0 del, .ok ())

def spliceText (tx : Tx A) (obj : ObjId A) (index del : ℕ) (text : String) :
    Reply A OpError Unit :=
  match tx.objMeta obj with
  | none => (tx, .error .notAnObject)
  | some .text => tx.innerSplice obj index del text
  | some _ => (tx, .error .invalidOp)

def delete (tx : Tx A) (obj : ObjId A) (prop : ObjProp) : Reply A OpError Unit :=
  match tx.objMeta obj, prop with
  | none, _ => (tx, .error .notAnObject)
  | some .text, .seq index => tx.innerSplice obj index 1 ""
  | some .text, .map _ => (tx, .error .invalidOp)
  | some objType, prop =>
    let (tx, reply) := tx.localObjOp obj objType prop .delete
    (tx, reply.map fun _ => ())

/-- `ExpandMark`. -/
structure ExpandMark where
  before : Bool
  after : Bool
  deriving DecidableEq

/-- `mark`: two insertions, the second of which can fail. -/
def mark (tx : Tx A) (obj : ObjId A) (start stop : ℕ) (name : String) (value : ScalarValue)
    (expand : ExpandMark) : Reply A OpError Unit :=
  match tx.objMeta obj with
  | some .text =>
    if start = stop ∧ expand = ⟨false, false⟩ then (tx, .ok ())
    else
      match tx.doInsert obj .text start (.markBegin expand.before name value) with
      | (tx, .error e) => (tx, .error e)
      | (tx, .ok _) =>
        let (tx, reply) := tx.doInsert obj .text stop (.markEnd expand.after)
        (tx, reply.map fun _ => ())
  | some _ => (tx, .error .invalidOp)
  | none => (tx, .error .notAnObject)

end

end Tx

end AutomergeR
