import Mathlib.Data.List.Lex
import AutomergeR.Codec.PrefixCode
import AutomergeR.Storage

/-! # A hash and a storage format

An instance of the parameters of a document, to run the model with: a change is hashed by
its encoding, which no other change has and which is longer than the hashes it depends
on. A chunk is two bytes that say what it is, and an encoding.
-/

namespace AutomergeR

open Codec

variable {A P : Type}

@[reducible] def changeCode (H A P : Type) [PrefixCode H] [PrefixCode A] [PrefixCode P] :
    PrefixCode (Change H A P) :=
  .ofRetract (β := A × ℕ × ℕ × List H × List P)
    (fun c => (c.actor, c.seq, c.startOp, c.deps, c.ops))
    (fun (actor, seq, startOp, deps, ops) => ⟨actor, seq, startOp, deps, ops⟩)
    (fun _ => rfl)

/-- The bytes of an encoding, as numbers. -/
def ByteHash := List ℕ

instance : LinearOrder ByteHash := inferInstanceAs (LinearOrder (List ℕ))

instance : PrefixCode ByteHash := inferInstanceAs (PrefixCode (List ℕ))

section

variable [PrefixCode A] [PrefixCode P]

attribute [local instance] changeCode

theorem length_encodeNat_pos : ∀ fuel n, 0 < (encodeNat fuel n).length
  | 0, n => Nat.one_pos
  | fuel + 1, n => by
    rw [encodeNat]
    split <;> exact Nat.succ_pos _

/-- The code of a hash is no shorter than the hash. -/
theorem length_le_encode (h : List ℕ) : h.length ≤ (encode h).length := by
  have hbytes : ∀ bytes : List ℕ, bytes.length ≤ (bytes.flatMap encode).length := by
    intro bytes
    induction bytes with
    | nil => exact le_rfl
    | cons b bytes ih =>
      have hpos : 0 < (encode b).length := length_encodeNat_pos b b
      rw [List.flatMap_cons, List.length_append, List.length_cons]
      omega
  have hcode : encode h = encode h.length ++ h.flatMap encode := rfl
  rw [hcode, List.length_append]
  exact (hbytes h).trans (Nat.le_add_left _ _)

instance : ChangeHash ByteHash A P where
  hash c := ((encode c).map UInt8.toNat : List ℕ)
  hash_injective := by
    intro a b h
    apply encode_injective
    exact List.map_injective_iff.mpr (fun _ _ => UInt8.toNat_inj.mp) h
  dep_wellFounded := by
    apply Subrelation.wf _ (measure fun h : ByteHash => List.length (α := ℕ) h).wf
    rintro a b ⟨c, rfl, ha⟩
    have hcode : encode c = encode c.actor ++ (encode c.seq ++ (encode c.startOp ++
        (encode c.deps ++ encode c.ops))) := rfl
    show List.length (α := ℕ) a < ((encode c).map UInt8.toNat).length
    have hdeps := length_encode_lt ha
    have hself : List.length (α := ℕ) a ≤ (encode a).length := length_le_encode a
    simp only [hcode, List.length_map, List.length_append]
    omega

/-! ## Chunks -/

section

variable [LinearOrder A]

/-- The chunk behind the two bytes. -/
def parseChunk (data : List UInt8) : Option (Chunk ByteHash A P × List UInt8) :=
  match data with
  | 0x85 :: 0 :: body =>
    (decode body).map fun ((heads, changes), rest) =>
      (⟨true, .document heads (some changes)⟩, rest)
  | 0x85 :: 1 :: body => (decode body).map fun (c, rest) => (⟨true, .change (some c)⟩, rest)
  | _ => none

/-- The format. -/
def byteFormat : ChunkFormat ByteHash A P where
  parse data := (parseChunk data).filter fun (_, rest) => rest.length < data.length
  parse_shorter h := by
    have hlt := (Option.filter_eq_some_iff.mp h).2
    simpa using hlt
  rawBytes c := 0x85 :: 1 :: encode c
  rawBytes_length c := by simp
  parse_rawBytes c rest := by
    simp [parseChunk, decode_encode, Option.filter]
    omega
  documentBytes heads changes := 0x85 :: 0 :: encode (heads, changes)
  documentBytes_length heads changes := by simp
  parse_documentBytes g rest _ := by
    simp [parseChunk, decode_encode, Option.filter]
    omega

end

end

/-- An op set that keeps the changes. -/
def changeLog (H A P : Type) : OpSetModel H A P where
  State := List (Change H A P)
  Cmd := List P
  new := []
  applyChanges s cs := s ++ cs
  reconstruct cs := cs
  exec s _ _ ops := some (s, ops)
  vecEncoderMax := 0

end AutomergeR
