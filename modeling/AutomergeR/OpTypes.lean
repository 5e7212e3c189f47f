import Mathlib.Algebra.Ring.Int.Defs
import Mathlib.Algebra.Ring.Nat
import Mathlib.Data.Prod.Lex
import Mathlib.Data.String.Basic
import Mathlib.Tactic.Common

/-! # Operations

`types.rs`, `value.rs` and `op_set2/types.rs`: what the operations of a change are.
Operation ids are compared by counter and then by actor. The head of a sequence and
the root object are `none`; every other element or object is named by the operation
that made it.
-/

namespace AutomergeR

/-- `OpId`: counter and actor. -/
abbrev OpId (A : Type) := ℕ ×ₗ A

namespace OpId

variable {A : Type}

def new (counter : ℕ) (actor : A) : OpId A := toLex (counter, actor)

def counter (id : OpId A) : ℕ := (ofLex id).1

def actor (id : OpId A) : A := (ofLex id).2

/-- `OpId::prev`. -/
def prev (id : OpId A) : OpId A := .new (id.counter - 1) id.actor

@[simp] theorem counter_new (counter : ℕ) (actor : A) : (new counter actor).counter = counter := rfl

@[simp] theorem actor_new (counter : ℕ) (actor : A) : (new counter actor).actor = actor := rfl

theorem ext {a b : OpId A} (hc : a.counter = b.counter) (ha : a.actor = b.actor) : a = b :=
  Prod.ext hc ha

theorem lt_of_counter [LinearOrder A] {a b : OpId A} (h : a.counter < b.counter) : a < b :=
  Prod.Lex.lt_iff.mpr (Or.inl h)

end OpId

/-- `ElemId`, the head of the sequence being `none`. -/
abbrev ElemId (A : Type) := Option (OpId A)

/-- `ObjId`, the root being `none`. -/
abbrev ObjId (A : Type) := Option (OpId A)

/-- `KeyRef`. -/
inductive Key (A : Type) where
  | map (prop : String)
  | seq (elem : ElemId A)
  deriving DecidableEq

inductive ObjType where
  | map
  | table
  | list
  | text
  deriving DecidableEq

def ObjType.isSequence : ObjType → Bool
  | .list | .text => true
  | _ => false

/-- `ScalarValue`. A float is its bit pattern. -/
inductive ScalarValue where
  | bytes (bytes : List UInt8)
  | str (str : String)
  | int (n : ℤ)
  | uint (n : ℕ)
  | f64 (bits : UInt64)
  | counter (n : ℤ)
  | timestamp (ms : ℤ)
  | boolean (b : Bool)
  | unknown (typeCode : UInt8) (bytes : List UInt8)
  | null
  deriving DecidableEq

namespace ScalarValue

/-- The exponent and the fraction of a float. -/
def magnitude (bits : UInt64) : ℕ := bits.toNat % 2 ^ 63

def isNaN (bits : UInt64) : Bool := 2047 * 2 ^ 52 < magnitude bits

/-- `==` on floats: the zeros are equal, a NaN equals nothing. -/
def f64Eq (a b : UInt64) : Bool :=
  !isNaN a && !isNaN b && (a == b || (magnitude a == 0 && magnitude b == 0))

/-- `PartialEq`. -/
def eq : ScalarValue → ScalarValue → Bool
  | .f64 a, .f64 b => f64Eq a b
  | a, b => a = b

end ScalarValue

/-- The sum of two `i64`, which wraps. -/
def addI64 (a b : ℤ) : ℤ := Int.bmod (a + b) (2 ^ 64)

inductive OpType where
  | make (objType : ObjType)
  | delete
  | increment (n : ℤ)
  | put (value : ScalarValue)
  | markBegin (expand : Bool) (name : String) (value : ScalarValue)
  | markEnd (expand : Bool)
  deriving DecidableEq

namespace OpType

def isIncrement : OpType → Bool
  | .increment _ => true
  | _ => false

def isMark : OpType → Bool
  | .markBegin .. | .markEnd _ => true
  | _ => false

def isSetOrMake : OpType → Bool
  | .put _ | .make _ => true
  | _ => false

/-- `get_increment_value`. -/
def getIncrementValue : OpType → Option ℤ
  | .increment n => some n
  | _ => none

def objType? : OpType → Option ObjType
  | .make t => some t
  | _ => none

/-- The value column. -/
def value : OpType → ScalarValue
  | .put v => v
  | .increment n => .int n
  | .markBegin _ _ v => v
  | _ => .null

def isCounter (action : OpType) : Bool :=
  match action.value with
  | .counter _ => true
  | _ => false

/-- `as_str`: what the operation contributes to a text. -/
def asStr (action : OpType) : String :=
  if action.isMark then ""
  else
    match action.value with
    | .str s => s
    | _ => "\uFFFC"

/-- `width` in a text, counted in code points. -/
def width (action : OpType) : ℕ := action.asStr.length

end OpType

/-- An operation as a change holds it. Its id is the change's actor with a counter, the
change's first operation having `start_op`. -/
structure Op (A : Type) where
  obj : ObjId A
  key : Key A
  insert : Bool
  action : OpType
  pred : List (OpId A)
  deriving DecidableEq

/-- `elemid_or_key`, of the operation with this id. -/
def Op.elemidOrKey (id : OpId A) (op : Op A) : Key A :=
  if op.insert then .seq (some id) else op.key

end AutomergeR
