import AutomergeR.FailedPut

/-! # Marks

`marks.rs` and the mark part of `cursors.c`. A mark is a pair of operations in the text,
the end having the id after the begin's. Reading the marks runs a state machine over the
text, which keeps the marks that are open in the order of their ids.
-/

namespace AutomergeR

open Codec

variable {A : Type} [LinearOrder A]

/-- `Mark`. -/
structure Mark where
  start : ℕ
  stop : ℕ
  name : String
  value : ScalarValue
  deriving DecidableEq

/-- `MarkSet`, sorted by name. -/
abbrev MarkSet := List (String × ScalarValue)

namespace MarkSet

def insert (set : MarkSet) (name : String) (value : ScalarValue) : MarkSet :=
  set.takeWhile (·.1 < name) ++ (name, value) :: set.dropWhile (·.1 ≤ name)

def remove (set : MarkSet) (name : String) : MarkSet := set.filter (·.1 ≠ name)

/-- `==` -/
def eq : MarkSet → MarkSet → Bool
  | [], [] => true
  | (n, v) :: set, (n', v') :: set' => n = n' && v.eq v' && eq set set'
  | _, _ => false

end MarkSet

/-- `MarkStateMachine`. -/
structure MarkStateMachine (A : Type) where
  /-- the open marks by id -/
  state : List (OpId A × String × ScalarValue)
  current : MarkSet

namespace MarkStateMachine

/-- `mark_above` and `mark_below`. -/
def markAbove (state : List (OpId A × String × ScalarValue)) (name : String) :
    Option ScalarValue := (state.find? (·.2.1 = name)).map (·.2.2)

def markBelow (state : List (OpId A × String × ScalarValue)) (name : String) :
    Option ScalarValue := (state.reverse.find? (·.2.1 = name)).map (·.2.2)

def markBegin (m : MarkStateMachine A) (id : OpId A) (name : String) (value : ScalarValue) :
    MarkStateMachine A :=
  let below := m.state.takeWhile (·.1 < id)
  let above := m.state.dropWhile (·.1 < id)
  if above.head?.map (·.1) = some id then m
  else
    let current :=
      match markAbove above name, markBelow below name with
      | some _, _ => m.current
      | none, some v => if v.eq value then m.current else m.current.insert name value
      | none, none => m.current.insert name value
    ⟨below ++ (id, name, value) :: above, current⟩

def markEnd (m : MarkStateMachine A) (id : OpId A) : MarkStateMachine A :=
  let below := m.state.takeWhile (·.1 < id.prev)
  match m.state.dropWhile (·.1 < id.prev) with
  | [] => m
  | (id', name, value) :: above =>
    if id' ≠ id.prev then m
    else
      let current :=
        match markAbove above name, markBelow below name with
        | some _, _ => m.current
        | none, some v => if v.eq value then m.current else m.current.insert name v
        | none, none => m.current.remove name
      ⟨below ++ above, current⟩

end MarkStateMachine

/-- `MarkAccumulator`: the spans of each name, the latest first. -/
abbrev MarkAccumulator := List (String × List (ℕ × ℕ × ScalarValue))

namespace MarkAccumulator

/-- One entry of `add`: a span that goes on from the last one with the same value
lengthens it. -/
def addSpan (spans : List (ℕ × ℕ × ScalarValue)) (index len : ℕ) (value : ScalarValue) :
    List (ℕ × ℕ × ScalarValue) :=
  match spans with
  | (i, l, v) :: spans' =>
    if v.eq value && i + l = index then (i, l + len, v) :: spans'
    else (index, len, value) :: spans
  | [] => [(index, len, value)]

def add (acc : MarkAccumulator) (index len : ℕ) (set : MarkSet) : MarkAccumulator :=
  set.foldl (fun acc (name, value) =>
    acc.takeWhile (·.1 < name) ++
      (name, addSpan ((acc.lookup name).getD []) index len value) ::
        acc.dropWhile (·.1 ≤ name)) acc

/-- `into_iter_no_unmark`. -/
def marks (acc : MarkAccumulator) : List Mark :=
  acc.flatMap fun (name, spans) =>
    (spans.reverse.filter (·.2.2 ≠ .null)).map fun (index, len, value) =>
      ⟨index, index + len, name, value⟩

end MarkAccumulator

/-- The loop of `calculate_marks`: over the marks of the characters read so far. -/
structure MarkScan (A : Type) where
  machine : MarkStateMachine A
  index : ℕ
  acc : MarkAccumulator
  lastMarks : Option MarkSet
  markLen : ℕ
  markIndex : ℕ

namespace MarkScan

/-- `MarkStateMachine::current`. -/
def marks (scan : MarkScan A) : Option MarkSet :=
  if scan.machine.current.isEmpty then none else some scan.machine.current

def sameMarks : Option MarkSet → Option MarkSet → Bool
  | none, none => true
  | some s, some s' => s.eq s'
  | _, _ => false

def flush (scan : MarkScan A) : MarkAccumulator :=
  match scan.lastMarks with
  | some set => if 0 < scan.markLen then scan.acc.add scan.markIndex scan.markLen set else scan.acc
  | none => scan.acc

def step (scan : MarkScan A) (r : Row A) : MarkScan A :=
  match r.action with
  | .markBegin _ name value => { scan with machine := scan.machine.markBegin r.id name value }
  | .markEnd _ => { scan with machine := scan.machine.markEnd r.id }
  | action =>
    let scan :=
      if sameMarks scan.lastMarks scan.marks then scan
      else
        { scan with
          acc := scan.flush, lastMarks := scan.marks, markIndex := scan.index, markLen := 0 }
    { scan with index := scan.index + action.width, markLen := scan.markLen + action.width }

end MarkScan

namespace OpSet

/-- `calculate_marks`, of a text. -/
def marks (s : OpSet A) (obj : ObjId A) : List Mark :=
  if s.objectType obj = some .text then
    let rows := topOps ((s.rows obj).filter fun r => !r.isInc && r.unhidden)
    (rows.foldl MarkScan.step ⟨⟨[], []⟩, 0, [], none, 0, 0⟩).flush.marks
  else []

/-- `am_marks_at`. -/
def marksAt (s : OpSet A) (obj : ObjId A) (pos : ℕ) : List Mark :=
  (s.marks obj).filter fun m => m.start ≤ pos ∧ pos < m.stop

end OpSet

/-! ## Making a mark -/

/-- `r_expand_to_c`. -/
def expandOf : RValue → Except RError Tx.ExpandMark
  | .character _ [s] =>
    match s.char with
    | some "none" => .ok ⟨false, false⟩
    | some "before" => .ok ⟨true, false⟩
    | some "after" => .ok ⟨false, true⟩
    | some "both" => .ok ⟨true, true⟩
    | _ => .error (.stop
      "Invalid expand value: must be \"none\", \"before\", \"after\", or \"both\"")
  | _ => .error (.stop "expand must be a single character string")

/-- `r_value_to_amitem`. A string that is not UTF-8 has no item. -/
def markItem (v : RValue) : Except RError (Option ScalarValue) :=
  if v.inherits "POSIXct" then
    if v.length ≠ 1 then .error (.stop "Mark value must be scalar")
    else .ok (some (.timestamp (RValue.milliseconds v.asReal)))
  else if v.inherits "am_counter" then
    match v with
    | .integer _ [n] => .ok (some (.counter n.toInt))
    | _ => .error (.stop "Counter must be a scalar integer")
  else
    match v with
    | .null => .ok (some .null)
    | .logical _ [b] => .ok (some (.boolean (b.getD true)))
    | .integer _ [n] => .ok (some (.int n.toInt))
    | .double _ [bits] => .ok (some (.f64 bits))
    | .character _ [text] => .ok (text.char.map ScalarValue.str)
    | .raw _ bytes => .ok (some (.bytes bytes))
    | _ => .error (.stop "Unsupported mark value type")

/-- The checks of a position in `C_am_mark_create`. -/
def markPosition (name : String) (v : RValue) : Except RError ℕ :=
  if !v.isNumeric then .error (.stop s!"{name} must be numeric")
  else if v.length ≠ 1 then .error (.stop s!"{name} must be a scalar")
  else if v.asInteger < 0 then
    .error (.stop s!"{name} must be non-negative (uses 0-based indexing)")
  else .ok v.asInteger.toNat

namespace Tx

/-- `AMmarkCreate`. Without an item it panics. -/
def markCreate (tx : Tx A) (obj : ObjId A) (start stop : ℕ) (expand : Tx.ExpandMark) (name : RString)
    (value : Option ScalarValue) : Reply A RError Unit :=
  match name.char, value with
  | none, _ => (tx, .error .invalidUtf8)
  | some _, none => (tx, .error .abort)
  | some name, some value => lift (tx.mark obj start stop name value expand)

/-- `C_am_mark_create`. -/
def amMarkCreate (tx : Tx A) (obj : ObjId A) (start stop name value expand : RValue) :
    Reply A RError Unit :=
  match markPosition "start" start, markPosition "end" stop with
  | .error e, _ => (tx, .error e)
  | .ok _, .error e => (tx, .error e)
  | .ok i, .ok j =>
    if j ≤ i then (tx, .error (.stop "end must be greater than start"))
    else
      match name with
      | .character _ [name] =>
        match expandOf expand, markItem value with
        | .error e, _ => (tx, .error e)
        | .ok _, .error e => (tx, .error e)
        | .ok expand, .ok item => tx.markCreate obj i j expand name item
      | _ => (tx, .error (.stop "name must be a single character string"))

end Tx

end AutomergeR
