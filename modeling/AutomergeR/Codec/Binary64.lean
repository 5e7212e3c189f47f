import Mathlib.Algebra.Ring.Int.Defs
import Mathlib.Algebra.Ring.Nat
import Mathlib.Data.Nat.Log
import Mathlib.Tactic.Common

/-! # Doubles

The double a 64-bit pattern stands for, rounding to the nearest double, and the
conversions to and from integers, in exact arithmetic.
-/

namespace Codec.Binary64

def negative (bits : UInt64) : Bool := 2 ^ 63 ≤ bits.toNat

def exponent (bits : UInt64) : ℕ := bits.toNat / 2 ^ 52 % 2048

def fraction (bits : UInt64) : ℕ := bits.toNat % 2 ^ 52

def isFinite (bits : UInt64) : Bool := exponent bits < 2047

/-- The magnitude of a finite double, in units of `2 ^ (-1074)`. -/
def units (bits : UInt64) : ℕ :=
  if exponent bits = 0 then fraction bits
  else (2 ^ 52 + fraction bits) * 2 ^ (exponent bits - 1)

/-- A finite double without its fractional part. -/
def trunc (bits : UInt64) : ℤ :=
  let n : ℕ := units bits / 2 ^ 1074
  if negative bits then -(n : ℤ) else n

/-- `num / den` rounded to an integer, ties to even. -/
def roundDiv (num den : ℕ) : ℕ :=
  let q := num / den
  let r := num % den
  if den < 2 * r ∨ (2 * r = den ∧ q % 2 = 1) then q + 1 else q

/-- The pattern of the magnitude nearest to `num / den` units. -/
def ofUnits (num den : ℕ) : ℕ :=
  let shift := Nat.log2 (num / den) - 52
  let q := roundDiv num (den * 2 ^ shift)
  let bits := if shift = 0 then q else q + shift * 2 ^ 52
  min bits (2047 * 2 ^ 52)

def ofSign (negative : Bool) (magnitude : ℕ) : UInt64 :=
  UInt64.ofNat (if negative then 2 ^ 63 + magnitude else magnitude)

/-- The double nearest to an integer. -/
def ofInt (n : ℤ) : UInt64 := ofSign (n < 0) (ofUnits (n.natAbs * 2 ^ 1074) 1)

/-- A finite double times `num / den`, rounded. -/
def scale (bits : UInt64) (num den : ℕ) : UInt64 :=
  ofSign (negative bits) (ofUnits (units bits * num) den)

example : ofInt 3 = 0x4008000000000000 := by decide +kernel
example : ofInt (-(2 ^ 53 + 1)) = 0xC340000000000000 := by decide +kernel
example : trunc 0xC00C000000000000 = -3 := by decide +kernel
example : scale 0x3FF8000000000000 1000 1 = 0x4097700000000000 := by decide +kernel

end Codec.Binary64
