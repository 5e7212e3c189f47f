import Mathlib.Data.List.Basic
import Mathlib.Logic.Equiv.Nat
import Mathlib.Tactic.Common

/-! # Prefix codes

Encodings into bytes that can be read back off the front of a longer input
(`decode_encode`), built up along the type. A prefix code is injective
(`encode_injective`), whatever follows.
-/

namespace Codec

/-- An encoding whose end the decoder finds by itself. -/
class PrefixCode (α : Type) where
  encode : α → List UInt8
  decode : List UInt8 → Option (α × List UInt8)
  decode_encode : ∀ a rest, decode (encode a ++ rest) = some (a, rest)

export PrefixCode (encode decode decode_encode)

variable {α β : Type}

theorem encode_injective [PrefixCode α] : Function.Injective (encode : α → List UInt8) := by
  intro a b h
  have ha := decode_encode a []
  rw [h, decode_encode b []] at ha
  simpa using ha.symm

/-! ## Numbers -/

/-- Base 128, least significant digit first, the high bit set on all digits but the
last. The fuel bounds the number of digits. -/
def encodeNat : ℕ → ℕ → List UInt8
  | 0, n => [n.toUInt8]
  | fuel + 1, n => if n < 128 then [n.toUInt8] else (n % 128 + 128).toUInt8 :: encodeNat fuel (n / 128)

def decodeNat : List UInt8 → Option (ℕ × List UInt8)
  | [] => none
  | b :: rest =>
    if b.toNat < 128 then some (b.toNat, rest)
    else (decodeNat rest).map fun (n, rest) => (b.toNat - 128 + 128 * n, rest)

theorem toNat_toUInt8 {n : ℕ} (h : n < 256) : n.toUInt8.toNat = n := by
  simp [Nat.mod_eq_of_lt h]

theorem decodeNat_digit {n : ℕ} (h : n < 128) (rest : List UInt8) :
    decodeNat (n.toUInt8 :: rest) = some (n, rest) := by
  have hn := toNat_toUInt8 (show n < 256 by omega)
  rw [decodeNat, hn, if_pos h]

theorem decodeNat_encodeNat : ∀ (fuel n : ℕ) (rest : List UInt8), n ≤ fuel →
    decodeNat (encodeNat fuel n ++ rest) = some (n, rest)
  | 0, n, rest, h => decodeNat_digit (by omega) rest
  | fuel + 1, n, rest, h => by
    rw [encodeNat]
    split
    · exact decodeNat_digit ‹_› rest
    · have hbyte : (n % 128 + 128).toUInt8.toNat = n % 128 + 128 := toNat_toUInt8 (by omega)
      have ih := decodeNat_encodeNat fuel (n / 128) rest (by omega)
      rw [List.cons_append, decodeNat, hbyte, if_neg (by omega), ih, Option.map_some]
      simp only [Option.some.injEq, Prod.mk.injEq, and_true]
      omega

instance : PrefixCode ℕ where
  encode n := encodeNat n n
  decode := decodeNat
  decode_encode n rest := decodeNat_encodeNat n n rest le_rfl

/-! ## Along a retraction -/

/-- A type that embeds into a coded one is coded. -/
@[reducible] def PrefixCode.ofRetract [PrefixCode β] (f : α → β) (g : β → α)
    (h : ∀ a, g (f a) = a) : PrefixCode α where
  encode a := encode (f a)
  decode data := (decode data).map fun (b, rest) => (g b, rest)
  decode_encode a rest := by simp only [decode_encode, Option.map_some, h]

/-- A type that embeds into the numbers. -/
@[reducible] def PrefixCode.ofNat (f : α → ℕ) (g : ℕ → α) (h : ∀ a, g (f a) = a) : PrefixCode α :=
  .ofRetract f g h

instance : PrefixCode UInt8 := .ofNat UInt8.toNat UInt8.ofNat fun b => by simp

instance : PrefixCode UInt64 := .ofNat UInt64.toNat UInt64.ofNat fun b => by simp

instance : PrefixCode Bool :=
  .ofNat (fun b => if b then 1 else 0) (· == 1) fun b => by cases b <;> rfl

instance : PrefixCode Int :=
  .ofNat Equiv.intEquivNat Equiv.intEquivNat.symm fun n => by simp

instance : PrefixCode Char := .ofNat Char.toNat Char.ofNat Char.ofNat_toNat

/-! ## Pairs, sums and lists -/

instance [PrefixCode α] [PrefixCode β] : PrefixCode (α × β) where
  encode p := encode p.1 ++ encode p.2
  decode data := do
    let (a, data) ← decode data
    let (b, data) ← decode data
    some ((a, b), data)
  decode_encode p rest := by simp [decode_encode]

instance [PrefixCode α] [PrefixCode β] : PrefixCode (α ⊕ β) where
  encode
    | .inl a => 0 :: encode a
    | .inr b => 1 :: encode b
  decode
    | [] => none
    | tag :: data =>
      if tag = 0 then (decode data).map fun (a, rest) => (.inl a, rest)
      else (decode data).map fun (b, rest) => (.inr b, rest)
  decode_encode s rest := by cases s <;> simp [decode_encode]

instance : PrefixCode Unit := .ofNat (fun _ => 0) (fun _ => ()) fun _ => rfl

instance [PrefixCode α] : PrefixCode (Option α) :=
  .ofRetract (β := Unit ⊕ α)
    (fun | none => .inl () | some a => .inr a)
    (fun | .inl _ => none | .inr a => some a)
    (fun o => by cases o <;> rfl)

/-- `n` items one after the other. -/
def decodeMany [PrefixCode α] : ℕ → List UInt8 → Option (List α × List UInt8)
  | 0, data => some ([], data)
  | n + 1, data => do
    let (a, data) ← decode data
    let (as, data) ← decodeMany n data
    some (a :: as, data)

theorem decodeMany_flatMap [PrefixCode α] : ∀ (as : List α) (rest : List UInt8),
    decodeMany as.length (as.flatMap encode ++ rest) = some (as, rest)
  | [], _ => rfl
  | a :: as, rest => by
    simp [decodeMany, List.append_assoc, decode_encode, decodeMany_flatMap as rest]

instance [PrefixCode α] : PrefixCode (List α) where
  encode as := encode as.length ++ as.flatMap encode
  decode data := do
    let (n, data) ← decode data
    decodeMany n data
  decode_encode as rest := by
    simp [List.append_assoc, decode_encode, decodeMany_flatMap]

/-- The code of a list is longer than that of any of its items. -/
theorem length_encode_lt [PrefixCode α] {a : α} {as : List α} (h : a ∈ as) :
    (encode a).length < (encode as).length := by
  have hpos : 0 < (encode as.length).length := by
    rcases hl : encode as.length with _ | ⟨b, bs⟩
    · have hd := decode_encode as.length []
      rw [hl] at hd
      cases hd
    · simp
  have hle : (encode a).length ≤ (as.flatMap encode).length := by
    obtain ⟨s, t, rfl⟩ := List.append_of_mem h
    simp only [List.flatMap_append, List.flatMap_cons, List.length_append]
    omega
  show (encode a).length < (encode as.length ++ as.flatMap encode).length
  rw [List.length_append]
  omega

instance : PrefixCode String :=
  .ofRetract String.toList String.ofList fun _ => String.ofList_toList

end Codec
