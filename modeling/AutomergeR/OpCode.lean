import AutomergeR.ByteHash
import AutomergeR.OpTypes

/-! # An encoding of operations

With it the changes of documents over the columns are hashed by their encodings.
-/

namespace AutomergeR

open Codec

variable {A : Type}

instance [PrefixCode A] : PrefixCode (OpId A) :=
  .ofRetract (β := ℕ × A) ofLex toLex fun _ => rfl

instance [PrefixCode A] : PrefixCode (Key A) :=
  .ofRetract (β := String ⊕ ElemId A)
    (fun | .map prop => .inl prop | .seq e => .inr e)
    (fun | .inl prop => .map prop | .inr e => .seq e)
    (fun key => by cases key <;> rfl)

instance : PrefixCode ObjType :=
  .ofNat
    (fun | .map => 0 | .table => 1 | .list => 2 | .text => 3)
    (fun | 0 => .map | 1 => .table | 2 => .list | _ => .text)
    (fun t => by cases t <;> rfl)

instance : PrefixCode ScalarValue :=
  .ofRetract (β := (List UInt8 ⊕ String ⊕ ℤ ⊕ ℕ ⊕ UInt64) ⊕ (ℤ ⊕ ℤ ⊕ Bool ⊕ (UInt8 × List UInt8) ⊕ Unit))
    (fun
      | .bytes bytes => .inl (.inl bytes)
      | .str str => .inl (.inr (.inl str))
      | .int n => .inl (.inr (.inr (.inl n)))
      | .uint n => .inl (.inr (.inr (.inr (.inl n))))
      | .f64 bits => .inl (.inr (.inr (.inr (.inr bits))))
      | .counter n => .inr (.inl n)
      | .timestamp ms => .inr (.inr (.inl ms))
      | .boolean b => .inr (.inr (.inr (.inl b)))
      | .unknown code bytes => .inr (.inr (.inr (.inr (.inl (code, bytes)))))
      | .null => .inr (.inr (.inr (.inr (.inr ())))))
    (fun
      | .inl (.inl bytes) => .bytes bytes
      | .inl (.inr (.inl str)) => .str str
      | .inl (.inr (.inr (.inl n))) => .int n
      | .inl (.inr (.inr (.inr (.inl n)))) => .uint n
      | .inl (.inr (.inr (.inr (.inr bits)))) => .f64 bits
      | .inr (.inl n) => .counter n
      | .inr (.inr (.inl ms)) => .timestamp ms
      | .inr (.inr (.inr (.inl b))) => .boolean b
      | .inr (.inr (.inr (.inr (.inl (code, bytes))))) => .unknown code bytes
      | .inr (.inr (.inr (.inr (.inr ())))) => .null)
    (fun v => by cases v <;> rfl)

instance : PrefixCode OpType :=
  .ofRetract (β := (ObjType ⊕ Unit ⊕ ℤ) ⊕ (ScalarValue ⊕ (Bool × String × ScalarValue) ⊕ Bool))
    (fun
      | .make t => .inl (.inl t)
      | .delete => .inl (.inr (.inl ()))
      | .increment n => .inl (.inr (.inr n))
      | .put v => .inr (.inl v)
      | .markBegin expand name v => .inr (.inr (.inl (expand, name, v)))
      | .markEnd expand => .inr (.inr (.inr expand)))
    (fun
      | .inl (.inl t) => .make t
      | .inl (.inr (.inl ())) => .delete
      | .inl (.inr (.inr n)) => .increment n
      | .inr (.inl v) => .put v
      | .inr (.inr (.inl (expand, name, v))) => .markBegin expand name v
      | .inr (.inr (.inr expand)) => .markEnd expand)
    (fun action => by cases action <;> rfl)

instance [PrefixCode A] : PrefixCode (Op A) :=
  .ofRetract (β := ObjId A × Key A × Bool × OpType × List (OpId A))
    (fun op => (op.obj, op.key, op.insert, op.action, op.pred))
    (fun (obj, key, insert, action, pred) => ⟨obj, key, insert, action, pred⟩)
    (fun _ => rfl)

end AutomergeR
