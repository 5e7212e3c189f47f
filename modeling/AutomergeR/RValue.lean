import AutomergeR.Codec.Binary64
import AutomergeR.OpTypes
import Mathlib.Data.List.TakeWhile

/-! # R values

The values R hands to the package and gets back from it, as far as the C code can tell
them apart: the type, the class attribute, the names of a list.
-/

namespace AutomergeR

open Codec

/-- A `CHARSXP`. R's strings hold no NUL; one in another encoding is `invalid` when its
bytes are not UTF-8. -/
inductive RString where
  | na
  | utf8 (text : String) (noNul : '\x00' ∉ text.toList)
  | invalid (bytes : List UInt8)
  deriving DecidableEq

namespace RString

/-- `CHAR`, as the library reads it through `to_str!`. `NA_STRING` has the bytes of
`"NA"`. -/
def char : RString → Option String
  | .na => some "NA"
  | .utf8 text _ => some text
  | .invalid _ => none

/-- `Rf_mkString` of a literal: C's string ends at its first NUL. -/
def lit (text : String) : RString :=
  if noNul : '\x00' ∉ text.toList then .utf8 text noNul
  else .utf8 (String.ofList (text.toList.takeWhile (· ≠ '\x00'))) (by
    intro h
    rw [String.toList_ofList] at h
    have hne := List.mem_takeWhile_imp h
    exact Bool.false_ne_true hne)

end RString

/-- An R value. An `integer` or `logical` NA is the smallest integer or `none`; names are
part of a list's elements. `other` stands for functions, environments, complex numbers,
external pointers and the rest. -/
inductive RValue where
  | null
  | logical (cls : List String) (xs : List (Option Bool))
  | integer (cls : List String) (xs : List Int32)
  | double (cls : List String) (xs : List UInt64)
  | character (cls : List String) (xs : List RString)
  | raw (cls : List String) (bytes : List UInt8)
  | list (cls : List String) (xs : List RValue)
  | namedList (cls : List String) (xs : List (RString × RValue))
  | other (cls : List String) (length : ℕ)

namespace RValue

/-- `NA_INTEGER`. -/
def naInteger : ℤ := -2 ^ 31

def cls : RValue → List String
  | .null => []
  | .logical cls _ | .integer cls _ | .double cls _ | .character cls _ | .raw cls _
  | .list cls _ | .namedList cls _ | .other cls _ => cls

/-- `Rf_inherits`. -/
def inherits (v : RValue) (what : String) : Bool := what ∈ v.cls

/-- `Rf_xlength`. -/
def length : RValue → ℕ
  | .null => 0
  | .logical _ xs => xs.length
  | .integer _ xs => xs.length
  | .double _ xs => xs.length
  | .character _ xs => xs.length
  | .raw _ bytes => bytes.length
  | .list _ xs => xs.length
  | .namedList _ xs => xs.length
  | .other _ n => n

/-- Whether the type is INTSXP or REALSXP. -/
def isNumeric : RValue → Bool
  | .integer .. | .double .. => true
  | _ => false

/-- A double as an integer: what does not fit is NA. -/
def integerOfReal (bits : UInt64) : ℤ :=
  let n := Binary64.trunc bits
  if Binary64.isFinite bits ∧ -2 ^ 31 < n ∧ n < 2 ^ 31 then n else naInteger

/-- `Rf_asInteger` of a numeric vector. -/
def asInteger : RValue → ℤ
  | .integer _ (n :: _) => n.toInt
  | .double _ (bits :: _) => integerOfReal bits
  | _ => naInteger

/-- `NA_REAL`. -/
def naReal : UInt64 := 0x7FF00000000007A2

/-- `Rf_asReal` of a length-one value. A string counts as NA here, and so does what the
conversion refuses. -/
def asReal : RValue → UInt64
  | .double _ (bits :: _) => bits
  | .integer _ (n :: _) => if n.toInt = naInteger then naReal else Binary64.ofInt n.toInt
  | .logical _ (some b :: _) => Binary64.ofInt (if b then 1 else 0)
  | _ => naReal

/-- `(int64_t)` of a double. What does not fit has no defined result in C; the common
processors yield the smallest integer. -/
def castInt64 (bits : UInt64) : ℤ :=
  let n := Binary64.trunc bits
  if Binary64.isFinite bits ∧ -2 ^ 63 ≤ n ∧ n < 2 ^ 63 then n else -2 ^ 63

/-- The product with `1000.0` of a double that may be infinite or no number. -/
def milliseconds (bits : UInt64) : ℤ :=
  if Binary64.isFinite bits then castInt64 (Binary64.scale bits 1000 1) else -2 ^ 63

/-- `Rf_ScalarInteger` where the number fits, else `Rf_ScalarReal`. -/
def ofInt64 (cls : List String) (n : ℤ) : RValue :=
  if -2 ^ 31 ≤ n ∧ n < 2 ^ 31 then .integer cls [Int32.ofInt n]
  else .double cls [Binary64.ofInt n]

theorem ofInt64_toInt (cls : List String) (n : Int32) : ofInt64 cls n.toInt = .integer cls [n] := by
  have hlo := n.le_toInt
  have hhi := n.toInt_lt
  unfold ofInt64
  rw [if_pos ⟨by omega, by omega⟩, Int32.ofInt_toInt]

end RValue

end AutomergeR
