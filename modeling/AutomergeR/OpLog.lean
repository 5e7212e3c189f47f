import Mathlib.Data.Set.Insert
import AutomergeR.Nesting
import AutomergeR.SeqPlaces

/-! # The columns as a record of operations

A document has a set of operations, its log, each with its id. The op set records them:
every operation but a deletion has its row, in the object it is for, and there are no other
rows (`Represents`). Where increments are made to counters of maps only (`Log.Plain`), a row
also has the successors that the log has for it, and stands where the log alone says it has
to (`Detailed`).

What a local operation may name is the same for all of them (`Rooted`), and so is what it
does to the columns (`Tx.issue`); `Logged` is what it keeps.
-/

namespace AutomergeR

variable {A : Type}

/-- The operations of a document, with their ids. -/
abbrev Log (A : Type) := Set (OpId A × Op A)

/-- The object was made with this type. -/
def Log.MadeAs (S : Log A) : ObjId A → ObjType → Prop
  | none, t => t = .map
  | some id, t => ∃ op, (id, op) ∈ S ∧ op.action = .make t

namespace Op

/-- What a sequence takes: insertions, and operations on an element. -/
structure SuitsSeq (t : ObjType) (op : Op A) : Prop where
  key : ∃ e, op.key = .seq e
  insertion : op.insert = true →
    op.action.isSetOrMake = true ∨ t = .text ∧ op.action.isMark = true
  update : op.insert = false → op.action.isMark = false ∧ op.key ≠ .seq none

structure SuitsMap (op : Op A) : Prop where
  key : ∃ prop, op.key = .map prop
  insert : op.insert = false
  unmarked : op.action.isMark = false

/-- What an object of the type takes. -/
def Suits (op : Op A) : ObjType → Prop
  | .map => op.SuitsMap
  | .list => op.SuitsSeq .list
  | .text => op.SuitsSeq .text
  | .table => False

end Op

/-- Increments are made under keys, and name counters. -/
def Log.Plain (S : Log A) : Prop := ∀ p ∈ S, p.2.action.isIncrement = true →
  (∃ prop, p.2.key = .map prop) ∧ ∀ q ∈ S, q.1 ∈ p.2.pred → q.2.action.isCounter = true

theorem Log.Plain.mono {S S' : Log A} (h : S'.Plain) (hS : S ⊆ S') : S.Plain :=
  fun p hp hinc => ⟨(h p (hS hp) hinc).1, fun q hq => (h p (hS hp) hinc).2 q (hS hq)⟩

/-- The predecessors are operations on the same key or element, in the order of their ids. -/
structure OnKey [LinearOrder A] (S : Log A) (p : OpId A × Op A) : Prop where
  pred : ∀ e ∈ p.2.pred, ∃ q ∈ S, q.1 = e ∧ q.2.elemidOrKey q.1 = p.2.key
  sorted : p.2.pred.Pairwise (· < ·)
  insertion : p.2.insert = true → p.2.pred = []
  deletion : p.2.action = .delete → p.2.pred ≠ []

/-- An operation of the log, or one to come: what it names is there and older. -/
structure Rooted [LinearOrder A] (S : Log A) (p : OpId A × Op A) : Prop where
  typed : ∃ t, S.MadeAs p.2.obj t ∧ p.2.Suits t
  older : ∀ id ∈ p.2.obj, id.counter < p.1.counter
  element : ∀ e, p.2.key = .seq (some e) → e.counter < p.1.counter ∧ ∃ q ∈ S, q.1 = e ∧
    q.2.obj = p.2.obj ∧ q.2.insert = true ∧ (p.2.insert = false → q.2.action.isMark = false)
  pred : ∀ e ∈ p.2.pred, e.counter < p.1.counter ∧ ∃ q ∈ S, q.1 = e ∧ q.2.obj = p.2.obj ∧
    q.2.action ≠ .delete ∧ ∀ prop, p.2.key = .map prop → q.2.key = .map prop
  nodup : p.2.pred.Nodup
  noTable : p.2.action ≠ .make .table
  onKey : S.Plain → OnKey S p

namespace Log

structure WF [LinearOrder A] (S : Log A) : Prop where
  unique : ∀ p ∈ S, ∀ q ∈ S, p.1 = q.1 → p = q
  rooted : ∀ p ∈ S, Rooted S p

theorem MadeAs.mono {S S' : Log A} {obj : ObjId A} {t : ObjType} (h : S.MadeAs obj t)
    (hS : S ⊆ S') : S'.MadeAs obj t := by
  cases obj with
  | none => exact h
  | some id =>
    obtain ⟨op, hop, hmake⟩ := h
    exact ⟨op, hS hop, hmake⟩

end Log

theorem OnKey.mono [LinearOrder A] {S S' : Log A} {p : OpId A × Op A} (h : OnKey S p)
    (hS : S ⊆ S') : OnKey S' p where
  pred e he := by
    obtain ⟨q, hq, hrest⟩ := h.pred e he
    exact ⟨q, hS hq, hrest⟩
  sorted := h.sorted
  insertion := h.insertion
  deletion := h.deletion

theorem Rooted.mono [LinearOrder A] {S S' : Log A} {p : OpId A × Op A} (h : Rooted S p) (hS : S ⊆ S') :
    Rooted S' p where
  typed := by
    obtain ⟨t, ht, hsuits⟩ := h.typed
    exact ⟨t, ht.mono hS, hsuits⟩
  older := h.older
  element e he := by
    obtain ⟨hlt, q, hq, hrest⟩ := h.element e he
    exact ⟨hlt, q, hS hq, hrest⟩
  pred e he := by
    obtain ⟨hlt, q, hq, hrest⟩ := h.pred e he
    exact ⟨hlt, q, hS hq, hrest⟩
  nodup := h.nodup
  noTable := h.noTable
  onKey hplain := (h.onKey (hplain.mono hS)).mono hS

namespace Log.WF

variable [LinearOrder A] {S : Log A} (h : S.WF) {obj : ObjId A} {t : ObjType} {p : OpId A × Op A}

include h

/-- An object has one type. -/
theorem type_unique {t' : ObjType} (ht : S.MadeAs obj t) (ht' : S.MadeAs obj t') : t = t' := by
  cases obj with
  | none => exact (show t = .map from ht).trans (show t' = .map from ht').symm
  | some id =>
    obtain ⟨op, hop, hmake⟩ := ht
    obtain ⟨op', hop', hmake'⟩ := ht'
    cases h.unique _ hop _ hop' rfl
    rw [hmake] at hmake'
    exact OpType.make.inj hmake'

theorem suits (hp : p ∈ S) (ht : S.MadeAs p.2.obj t) : p.2.Suits t := by
  obtain ⟨t', ht', hsuits⟩ := (h.rooted p hp).typed
  rwa [h.type_unique ht ht']

theorem no_table : ¬ S.MadeAs obj .table := by
  intro ht
  cases obj with
  | none => cases ht
  | some id =>
    obtain ⟨op, hop, hmake⟩ := ht
    exact (h.rooted _ hop).noTable hmake

theorem suitsSeq (ht : S.MadeAs p.2.obj t) (hseq : t.isSequence = true) (hp : p ∈ S) :
    p.2.SuitsSeq t := by
  have hsuits := h.suits hp ht
  cases t with
  | map | table => cases hseq
  | list | text => exact hsuits

end Log.WF

/-! ## What the op set records -/

/-- The row is that of the operation. -/
structure Row.Records (r : Row A) (p : OpId A × Op A) : Prop where
  id : r.id = p.1
  key : r.key = p.2.key
  insert : r.insert = p.2.insert
  action : r.action = p.2.action

structure Represents (s : OpSet A) (S : Log A) : Prop where
  nodup : ∀ obj, ((s.rows obj).map Row.id).Nodup
  row : ∀ obj, ∀ r ∈ s.rows obj, ∃ p ∈ S, p.2.obj = obj ∧ p.2.action ≠ .delete ∧ r.Records p
  op : ∀ p ∈ S, p.2.action ≠ .delete → ∃ r ∈ s.rows p.2.obj, r.Records p
  made : ∀ id t, (id, t) ∈ s.objInfo ↔ ∃ op, (id, op) ∈ S ∧ op.action = .make t

variable [LinearOrder A]

/-- Sorted by keys and ids. -/
def MapOrder (rows : List (Row A)) : Prop :=
  rows.Pairwise fun r r' => r.mapKey < r'.mapKey ∨ r.mapKey = r'.mapKey ∧ r.id < r'.id

/-- The order of the rows of an object. -/
def RowsInOrder : ObjType → List (Row A) → Prop
  | .map, rows | .table, rows => MapOrder rows
  | .list, rows | .text, rows => SeqRows rows

/-- The successors of an operation are what the log has for it. -/
structure Row.SuccOf (S : Log A) (r : Row A) : Prop where
  nodup : (r.succ.map Prod.fst).Nodup
  mem : ∀ x, x ∈ r.succ ↔
    ∃ p ∈ S, r.id ∈ p.2.pred ∧ x = (p.1, p.2.action.getIncrementValue)

/-- The index column `text`. -/
def Row.WidthOf (r : Row A) : Prop :=
  r.isInc = false → r.text.getD 0 = if r.visible then r.action.width else 0

structure Detailed (s : OpSet A) (S : Log A) : Prop where
  succ : ∀ obj, ∀ r ∈ s.rows obj, r.SuccOf S
  indexed : ∀ obj, ∀ r ∈ s.rows obj, r.Indexed
  order : ∀ obj t, S.MadeAs obj t → RowsInOrder t (s.rows obj)
  text : ∀ obj, S.MadeAs obj .text → TextIndexed (s.rows obj)
  width : ∀ obj, ∀ r ∈ s.rows obj, r.WidthOf

/-- The type of an object, where `obj_info` has what the log makes. -/
theorem objectType_iff {s : OpSet A} {S : Log A} (hS : S.WF) {obj : ObjId A} {t : ObjType}
    (hmade : ∀ id t, (id, t) ∈ s.objInfo ↔ ∃ op, (id, op) ∈ S ∧ op.action = .make t) :
    s.objectType obj = some t ↔ S.MadeAs obj t := by
  cases obj with
  | none =>
    show some ObjType.map = some t ↔ t = .map
    rw [Option.some.injEq, eq_comm]
  | some id =>
    show s.objInfo.lookup id = some t ↔ _
    constructor
    · intro hl
      obtain ⟨l, l', hinfo, -⟩ := List.lookup_eq_some_iff.mp hl
      exact (hmade id t).mp (by rw [hinfo]; simp)
    · intro ht
      have hmem := (hmade id t).mpr ht
      cases hl : s.objInfo.lookup id with
      | none =>
        rw [List.lookup_eq_none_iff] at hl
        have := hl _ hmem
        simp at this
      | some t' =>
        obtain ⟨l, l', hinfo, -⟩ := List.lookup_eq_some_iff.mp hl
        have ht' : S.MadeAs (some id) t' := (hmade id t').mp (by rw [hinfo]; simp)
        rw [hS.type_unique ht' ht]

namespace Represents

variable {s : OpSet A} {S : Log A} (h : Represents s S) (hS : S.WF) {obj : ObjId A} {t : ObjType}
  {r : Row A}

include h hS

theorem objectType : s.objectType obj = some t ↔ S.MadeAs obj t := objectType_iff hS h.made

/-- An object that the log does not know has no rows. -/
theorem known_or_empty {U : Log A} (hU : U.WF) (hsub : S ⊆ U) (ht : U.MadeAs obj t) :
    S.MadeAs obj t ∨ s.rows obj = [] := by
  refine or_iff_not_imp_right.mpr fun hne => ?_
  obtain ⟨r, hr⟩ := List.exists_mem_of_ne_nil _ hne
  obtain ⟨p, hp, rfl, -, -⟩ := h.row obj r hr
  obtain ⟨t', ht', -⟩ := (hS.rooted p hp).typed
  rwa [hU.type_unique ht (ht'.mono hsub)]

/-- The element a row belongs to is in the log. -/
theorem cursor (ht : S.MadeAs obj t) (hseq : t.isSequence = true) (hr : r ∈ s.rows obj) :
    ∃ e, r.cursor = some e ∧ e.counter ≤ r.id.counter ∧ ∃ q ∈ S, q.1 = e ∧ q.2.obj = obj ∧
      q.2.insert = true ∧ (r.action.isMark = false → q.2.action.isMark = false) := by
  obtain ⟨p, hp, rfl, -, hrec⟩ := h.row obj r hr
  have hsuits := hS.suitsSeq ht hseq hp
  unfold Row.cursor
  cases hins : r.insert with
  | true =>
    refine ⟨r.id, rfl, le_rfl, p, hp, hrec.id.symm, rfl, hrec.insert ▸ hins, fun hm => ?_⟩
    rw [← hrec.action]
    exact hm
  | false =>
    obtain ⟨e, hkey⟩ := hsuits.key
    have hupd := hsuits.update (hrec.insert ▸ hins)
    cases e with
    | none => exact absurd hkey hupd.2
    | some e =>
      obtain ⟨hlt, q, hq, hid, hobj, hqins, hmark⟩ := (hS.rooted p hp).element e hkey
      refine ⟨e, ?_, ?_, q, hq, hid, hobj, hqins, fun _ => hmark (hrec.insert ▸ hins)⟩
      · rw [hrec.key, hkey]
        rfl
      · rw [hrec.id]
        exact hlt.le

/-- Nothing is done to a mark. -/
theorem loneMarks (ht : S.MadeAs obj t) (hseq : t.isSequence = true) (hrows : SeqRows (s.rows obj)) :
    LoneMarks (s.rows obj) := by
  intro pos r x hr hx hmark
  by_contra hins
  have hins := Bool.eq_false_iff.mpr hins
  have hrmem := List.mem_of_getElem? hr
  have hxmem := List.mem_of_getElem? hx
  obtain ⟨p, hp, hobj, -, hrec⟩ := h.row obj r hrmem
  obtain ⟨p', hp', hobj', -, hrec'⟩ := h.row obj x hxmem
  have hsuits := hS.suitsSeq (hobj.symm ▸ ht) hseq hp
  have hrins : r.insert = true := by
    rw [hrec.insert]
    by_contra hn
    have := (hsuits.update (Bool.eq_false_iff.mpr hn)).1
    rw [← hrec.action, hmark] at this
    cases this
  have hcur := hrows.cursor_succ hr hx hins
  unfold Row.cursor at hcur
  rw [hins, hrins, hrec'.key] at hcur
  obtain ⟨e, hkey⟩ := (hS.suitsSeq (hobj'.symm ▸ ht) hseq hp').key
  rw [hkey] at hcur
  have hcur : e = some r.id := hcur
  subst hcur
  obtain ⟨-, q, hq, hid, -, -, hm⟩ := (hS.rooted p' hp').element r.id hkey
  have hqp := hS.unique q hq p hp (hid.trans hrec.id)
  have := hm (hrec'.insert ▸ hins)
  rw [hqp, ← hrec.action, hmark] at this
  cases this

end Represents

omit [LinearOrder A] in
theorem represents_new : Represents (OpSet.new : OpSet A) ∅ where
  nodup _ := List.nodup_nil
  row _ _ hr := absurd hr List.not_mem_nil
  op _ hp := absurd hp (Set.notMem_empty _)
  made id t := by simp [OpSet.new]

theorem detailed_new : Detailed (OpSet.new : OpSet A) ∅ where
  succ _ _ hr := absurd hr List.not_mem_nil
  indexed _ _ hr := absurd hr List.not_mem_nil
  order _ t _ := by
    cases t with
    | map | table => exact List.Pairwise.nil
    | list | text => exact SeqRows.nil
  text _ _ _ hr := absurd hr List.not_mem_nil
  width _ _ hr := absurd hr List.not_mem_nil

namespace Tx

/-! ## One operation -/

/-- The operations of the open transaction. -/
def opened (tx : Tx A) : Log A :=
  {p | ∃ i, tx.pending[i]? = some p.2 ∧ p.1 = .new (tx.startOp + i) tx.actor}

/-- The log of a document whose log was `base` when the transaction was opened. -/
def log (base : Log A) (tx : Tx A) : Log A := base ∪ tx.opened

/-- A new operation: its row, and what it is to its predecessors. -/
def issue (tx : Tx A) (pos : ℕ) (op : Op A) : Tx A :=
  (tx.splice pos op).addSuccs op.obj op.pred (tx.nextId, op.action.getIncrementValue)

structure Logged (base : Log A) (tx : Tx A) : Prop where
  wf : (tx.log base).WF
  below : ∀ p ∈ tx.log base, p.1.counter < tx.nextId.counter
  represents : Represents tx.ops (tx.log base)
  detailed : (tx.log base).Plain → Detailed tx.ops (tx.log base)

/-- Where the row of an operation goes. -/
def PlacedAt (rows : List (Row A)) (pos : ℕ) (op : Op A) : Prop :=
  match op.key with
  | .map prop => pos = keyEnd rows prop
  | .seq e => EndsAt rows pos e

/-- What an operation names is in the log, and its row goes where it should. -/
structure Placed (base : Log A) (tx : Tx A) (pos : ℕ) (op : Op A) : Prop where
  rooted : Rooted (tx.log base) (tx.nextId, op)
  place : (Insert.insert (tx.nextId, op) (tx.log base)).Plain → op.action ≠ .delete →
    PlacedAt (tx.ops.rows op.obj) pos op

variable {base : Log A} {tx : Tx A} {pos : ℕ} {op : Op A} {obj : ObjId A}

theorem log_issue : (tx.issue pos op).log base = Insert.insert (tx.nextId, op) (tx.log base) := by
  have hopened : (tx.issue pos op).opened = Insert.insert (tx.nextId, op) tx.opened := by
    ext p
    show (∃ i, (tx.pending ++ [op])[i]? = some p.2 ∧ p.1 = .new (tx.startOp + i) tx.actor) ↔
      p = (tx.nextId, op) ∨ _
    constructor
    · rintro ⟨i, hi, hid⟩
      rcases Nat.lt_trichotomy i tx.pending.length with hlt | rfl | hlt
      · rw [List.getElem?_append_left hlt] at hi
        exact Or.inr ⟨i, hi, hid⟩
      · left
        rw [List.getElem?_append_right le_rfl, Nat.sub_self] at hi
        exact Prod.ext hid (Option.some.inj hi).symm
      · rw [List.getElem?_eq_none (by simp; omega)] at hi
        cases hi
    · rintro (rfl | ⟨i, hi, hid⟩)
      · exact ⟨tx.pending.length, by simp, rfl⟩
      · have hlt := (List.getElem?_eq_some_iff.mp hi).1
        exact ⟨i, by rwa [List.getElem?_append_left hlt], hid⟩
  unfold log
  rw [hopened, Set.union_insert]

theorem subset_issue : tx.log base ⊆ (tx.issue pos op).log base := by
  rw [log_issue]
  exact Set.subset_insert _ _

theorem counter_nextId_issue : (tx.issue pos op).nextId.counter = tx.nextId.counter + 1 :=
  counter_nextId_splice tx pos op

theorem rows_issue : (tx.issue pos op).ops.rows op.obj =
    succRows ((tx.ops.rows op.obj).take pos ++
      (if op.action = .delete then [] else [row tx.nextId op]) ++ (tx.ops.rows op.obj).drop pos)
        op.pred (tx.nextId, op.action.getIncrementValue) := by
  unfold issue addSuccs
  rw [rows_setRows, rows_splice]

theorem rows_issue_ne (h : obj ≠ op.obj) : (tx.issue pos op).ops.rows obj = tx.ops.rows obj := by
  unfold issue addSuccs
  rw [rows_setRows_ne _ _ h, rows_splice_ne tx pos op h]

theorem objInfo_issue : (tx.issue pos op).ops.objInfo =
    match op.action.objType? with
    | some t => (tx.nextId, t) :: tx.ops.objInfo
    | none => tx.ops.objInfo := rfl

/-! ### The rows behind it -/

/-- A row, and the same row with one successor more. -/
def touch (ids : List (OpId A)) (s : OpId A × Option ℤ) (r : Row A) : Row A :=
  if ids.contains r.id then r.addSucc s else r

section

variable (ids : List (OpId A)) (s : OpId A × Option ℤ) (r : Row A)

theorem touch_eq : touch ids s r = if r.id ∈ ids then r.addSucc s else r := by
  simp [touch]

@[simp] theorem touch_id : (touch ids s r).id = r.id := by
  rw [touch_eq]
  split <;> simp

@[simp] theorem touch_key : (touch ids s r).key = r.key := by
  rw [touch_eq]
  split <;> simp

@[simp] theorem touch_insert : (touch ids s r).insert = r.insert := by
  rw [touch_eq]
  split <;> simp

@[simp] theorem touch_action : (touch ids s r).action = r.action := by
  rw [touch_eq]
  split <;> simp

theorem records_touch {p : OpId A × Op A} : (touch ids s r).Records p ↔ r.Records p := by
  constructor
  · rintro ⟨hid, hkey, hins, hact⟩
    simp only [touch_id, touch_key, touch_insert, touch_action] at hid hkey hins hact
    exact ⟨hid, hkey, hins, hact⟩
  · rintro ⟨hid, hkey, hins, hact⟩
    exact ⟨by simpa using hid, by simpa using hkey, by simpa using hins, by simpa using hact⟩

end

theorem rows_issue_touch : (tx.issue pos op).ops.rows op.obj =
    ((tx.ops.rows op.obj).take pos ++
      (if op.action = .delete then [] else [row tx.nextId op]) ++ (tx.ops.rows op.obj).drop pos).map
        (touch op.pred (tx.nextId, op.action.getIncrementValue)) :=
  rows_issue.trans (List.map_congr_left fun r _ => (touch_eq _ _ r).symm)

omit [LinearOrder A] in
theorem records_row (id : OpId A) (op : Op A) : (row id op).Records (id, op) := ⟨rfl, rfl, rfl, rfl⟩

/-- The rows of the object, and the new one. -/
theorem mem_rows_issue {r : Row A} : r ∈ (tx.issue pos op).ops.rows op.obj ↔
    ∃ x, (x ∈ tx.ops.rows op.obj ∨ op.action ≠ .delete ∧ x = row tx.nextId op) ∧
      touch op.pred (tx.nextId, op.action.getIncrementValue) x = r := by
  rw [rows_issue_touch, List.mem_map]
  refine exists_congr fun x => and_congr_left fun _ => ?_
  have hsplit : x ∈ tx.ops.rows op.obj ↔
      x ∈ (tx.ops.rows op.obj).take pos ∨ x ∈ (tx.ops.rows op.obj).drop pos := by
    rw [← List.mem_append, List.take_append_drop]
  rw [hsplit, List.mem_append, List.mem_append]
  by_cases hdel : op.action = .delete
  · simp [hdel]
  · rw [if_neg hdel, List.mem_singleton]
    tauto

namespace Logged

variable (h : tx.Logged base)

include h

theorem fresh : tx.Fresh where
  ids obj r hr := by
    obtain ⟨p, hp, -, -, hrec⟩ := h.represents.row obj r hr
    rw [hrec.id]
    exact h.below p hp
  nodup := h.represents.nodup
  rows obj hno := by
    refine List.eq_nil_iff_forall_not_mem.mpr fun r hr => hno fun id hid => ?_
    obtain ⟨p, hp, hobj, -, -⟩ := h.represents.row obj r hr
    exact ((h.wf.rooted p hp).older id (hobj ▸ hid)).trans (h.below p hp)
  objects p hp := by
    obtain ⟨op, hop, -⟩ := (h.represents.made p.1 p.2).mp hp
    exact h.below _ hop

/-- The new operation is in the log, and what it names was there. -/
theorem wf_issue (pos : ℕ) (hp : Rooted (tx.log base) (tx.nextId, op)) :
    ((tx.issue pos op).log base).WF where
  unique := by
    rw [log_issue]
    have hnew : ∀ p ∈ tx.log base, p.1 ≠ tx.nextId := fun p hp heq =>
      lt_irrefl _ (heq ▸ h.below p hp)
    rintro p (rfl | hp) q (rfl | hq) heq
    · rfl
    · exact absurd heq.symm (hnew q hq)
    · exact absurd heq (hnew p hp)
    · exact h.wf.unique p hp q hq heq
  rooted := by
    rw [log_issue]
    rintro p (rfl | hp')
    · exact hp.mono (Set.subset_insert _ _)
    · exact (h.wf.rooted p hp').mono (Set.subset_insert _ _)

theorem represents_issue :
    Represents (tx.issue pos op).ops ((tx.issue pos op).log base) where
  nodup obj := by
    by_cases hobj : obj = op.obj
    · subst hobj
      have hnd := nodup_splice h.fresh pos op
      rw [rows_splice] at hnd
      rw [rows_issue_touch, List.map_map]
      have hid : Row.id ∘ touch op.pred (tx.nextId, op.action.getIncrementValue) = Row.id :=
        funext fun r => touch_id _ _ r
      rw [hid]
      exact hnd
    · rw [rows_issue_ne hobj]
      exact h.represents.nodup obj
  row obj r hr := by
    rw [log_issue]
    by_cases hobj : obj = op.obj
    · subst hobj
      obtain ⟨x, hx | ⟨hdel, rfl⟩, rfl⟩ := mem_rows_issue.mp hr
      · obtain ⟨p, hp, hrest⟩ := h.represents.row _ x hx
        exact ⟨p, Or.inr hp, hrest.1, hrest.2.1, (records_touch _ _ x).mpr hrest.2.2⟩
      · exact ⟨_, Or.inl rfl, rfl, hdel, (records_touch _ _ _).mpr (records_row _ _)⟩
    · rw [rows_issue_ne hobj] at hr
      obtain ⟨p, hp, hrest⟩ := h.represents.row obj r hr
      exact ⟨p, Or.inr hp, hrest⟩
  op := by
    rw [log_issue]
    rintro p (rfl | hp') hdel
    · exact ⟨_, mem_rows_issue.mpr ⟨_, Or.inr ⟨hdel, rfl⟩, rfl⟩,
        (records_touch _ _ _).mpr (records_row _ _)⟩
    · obtain ⟨r, hr, hrec⟩ := h.represents.op p hp' hdel
      by_cases hobj : p.2.obj = op.obj
      · rw [hobj] at hr ⊢
        exact ⟨_, mem_rows_issue.mpr ⟨r, Or.inl hr, rfl⟩, (records_touch _ _ r).mpr hrec⟩
      · exact ⟨r, by rwa [rows_issue_ne hobj], hrec⟩
  made id t := by
    rw [log_issue, objInfo_issue]
    have hold := h.represents.made id t
    constructor
    · intro hmem
      have hcases : (id = tx.nextId ∧ op.action.objType? = some t) ∨ (id, t) ∈ tx.ops.objInfo := by
        split at hmem
        · rename_i t' ht'
          rcases List.mem_cons.mp hmem with heq | hmem
          · cases heq
            exact Or.inl ⟨rfl, ht'⟩
          · exact Or.inr hmem
        · exact Or.inr hmem
      rcases hcases with ⟨rfl, ht⟩ | hmem
      · refine ⟨op, Or.inl rfl, ?_⟩
        cases hact : op.action <;> rw [hact] at ht <;> cases ht
        rfl
      · obtain ⟨op', hop', hmake⟩ := hold.mp hmem
        exact ⟨op', Or.inr hop', hmake⟩
    · rintro ⟨op', hop' | hop', hmake⟩
      · cases hop'
        rw [hmake]
        exact List.mem_cons_self
      · have hmem := hold.mpr ⟨op', hop', hmake⟩
        split
        · exact List.mem_cons_of_mem _ hmem
        · exact hmem

end Logged

end Tx

/-! ### Its order -/

theorem Row.addSucc_perm (r : Row A) (s : OpId A × Option ℤ) : (r.addSucc s).succ.Perm
    ((s.1, if r.action.isCounter then s.2 else none) :: r.succ) := by
  have hsucc : (r.addSucc s).succ = r.succ.takeWhile (·.1 ≤ s.1) ++
      (s.1, if r.action.isCounter then s.2 else none) :: r.succ.dropWhile (·.1 ≤ s.1) := by
    cases hc : r.action.isCounter <;> cases hs : s.2.isSome <;> simp [Row.addSucc, hc, hs]
  rw [hsucc]
  exact List.perm_middle.trans (by rw [List.takeWhile_append_dropWhile])

/-- A new operation is one successor more, of the counters and other operations it names. -/
theorem Row.SuccOf.touch {S : Log A} {r : Row A} {p : OpId A × Op A} (h : r.SuccOf S)
    (hnew : ∀ q ∈ S, q.1 ≠ p.1)
    (hcounter : r.id ∈ p.2.pred → p.2.action.isIncrement = true → r.action.isCounter = true) :
    (Tx.touch p.2.pred (p.1, p.2.action.getIncrementValue) r).SuccOf (Insert.insert p S) := by
  have hold : p.1 ∉ r.succ.map Prod.fst := by
    intro hmem
    obtain ⟨x, hx, hid⟩ := List.mem_map.mp hmem
    obtain ⟨q, hq, -, rfl⟩ := (h.mem x).mp hx
    exact hnew q hq hid
  rw [Tx.touch_eq]
  split
  · rename_i hpred
    have hinc : (if r.action.isCounter then p.2.action.getIncrementValue else none) =
        p.2.action.getIncrementValue := by
      cases hact : p.2.action with
      | increment n => rw [hcounter hpred (by rw [hact]; rfl), if_pos rfl]
      | make | delete | put | markBegin | markEnd => exact ite_self _
    have hperm := r.addSucc_perm (p.1, p.2.action.getIncrementValue)
    rw [hinc] at hperm
    refine ⟨(hperm.map Prod.fst).nodup_iff.mpr (List.nodup_cons.mpr ⟨hold, h.nodup⟩), fun x => ?_⟩
    rw [hperm.mem_iff, List.mem_cons, h.mem, Row.addSucc_id]
    constructor
    · rintro (rfl | ⟨q, hq, hqpred, rfl⟩)
      · exact ⟨p, Or.inl rfl, hpred, rfl⟩
      · exact ⟨q, Or.inr hq, hqpred, rfl⟩
    · rintro ⟨q, rfl | hq, hqpred, rfl⟩
      · exact Or.inl rfl
      · exact Or.inr ⟨q, hq, hqpred, rfl⟩
  · rename_i hpred
    refine ⟨h.nodup, fun x => (h.mem x).trans ⟨?_, ?_⟩⟩
    · rintro ⟨q, hq, hqpred, rfl⟩
      exact ⟨q, Or.inr hq, hqpred, rfl⟩
    · rintro ⟨q, rfl | hq, hqpred, rfl⟩
      · exact absurd hqpred hpred
      · exact ⟨q, hq, hqpred, rfl⟩

theorem Row.WidthOf.addSucc {r : Row A} (h : r.WidthOf) (s : OpId A × Option ℤ) :
    (r.addSucc s).WidthOf := by
  intro hinc
  have hr := h (by
    unfold Row.isInc at hinc ⊢
    rwa [Row.addSucc_action] at hinc)
  rw [Row.addSucc_action]
  cases hc : (if r.action.isCounter then s.2 else none) with
  | none => simp [Row.addSucc, hc]
  | some n => simpa [Row.addSucc, hc] using hr

omit [LinearOrder A] in
theorem Row.widthOf_row (id : OpId A) (op : Op A) : (Tx.row id op).WidthOf := by
  intro hinc
  have hshown : (Tx.row id op).visible = true := congrArg Bool.not hinc
  rw [hshown, if_pos rfl]
  rfl

omit [LinearOrder A] in
/-- The rows cut where those with a greater key begin. -/
theorem keyEnd_cut {rows : List (Row A)} (hkeys : ∀ r ∈ rows, r.key = .map r.mapKey) (prop : String) :
    ∃ l l', rows = l ++ l' ∧ Tx.keyEnd rows prop = l.length ∧ (∀ r ∈ l, r.mapKey ≤ prop) ∧
      ∀ r ∈ l'.head?, prop < r.mapKey := by
  induction rows with
  | nil => exact ⟨[], [], rfl, rfl, by simp, by simp⟩
  | cons r rows ih =>
    obtain ⟨l, l', hrows, hend, hl, hl'⟩ := ih fun x hx => hkeys x (List.mem_cons_of_mem r hx)
    have hkey := hkeys r List.mem_cons_self
    by_cases hle : r.mapKey ≤ prop
    · refine ⟨r :: l, l', by rw [hrows]; rfl, ?_, fun x hx => ?_, hl'⟩
      · unfold Tx.keyEnd at hend ⊢
        rw [List.takeWhile_cons_of_pos (by rw [hkey]; simpa using hle), List.length_cons, hend]
        rfl
      · rcases List.mem_cons.mp hx with rfl | hx
        · exact hle
        · exact hl x hx
    · refine ⟨[], r :: rows, rfl, ?_, by simp, fun x hx => ?_⟩
      · unfold Tx.keyEnd
        rw [List.takeWhile_cons_of_neg (by rw [hkey]; simpa using hle), List.length_nil]
      · cases hx
        exact lt_of_not_ge hle

/-- Behind the operations on its key the youngest row is in order. -/
theorem MapOrder.insert {rows : List (Row A)} {new : Row A} (h : MapOrder rows)
    (hkeys : ∀ r ∈ rows, r.key = .map r.mapKey) (hid : ∀ r ∈ rows, r.id < new.id) :
    MapOrder (rows.take (Tx.keyEnd rows new.mapKey) ++ [new] ++
      rows.drop (Tx.keyEnd rows new.mapKey)) := by
  obtain ⟨l, l', rfl, hend, hl, hl'⟩ := keyEnd_cut hkeys new.mapKey
  rw [hend, List.take_left, List.drop_left, List.append_assoc]
  obtain ⟨hsl, hsl', hcross⟩ := List.pairwise_append.mp h
  refine List.pairwise_append.mpr ⟨hsl, List.pairwise_cons.mpr ⟨fun r hr => ?_, hsl'⟩,
    fun r hr x hx => ?_⟩
  · -- the first of them has a greater key, and so have the others
    cases l' with
    | nil => cases hr
    | cons y l' =>
      have hy := hl' y rfl
      rcases List.mem_cons.mp hr with rfl | hr
      · exact Or.inl hy
      · rcases (List.pairwise_cons.mp hsl').1 r hr with hlt | ⟨heq, -⟩
        · exact Or.inl (hy.trans hlt)
        · exact Or.inl (heq ▸ hy)
  · rcases List.mem_cons.mp hx with rfl | hx
    · rcases (hl r hr).lt_or_eq with hlt | heq
      · exact Or.inl hlt
      · exact Or.inr ⟨heq, hid r (List.mem_append_left _ hr)⟩
    · exact hcross r hr x hx

theorem RowsInOrder.nil (t : ObjType) : RowsInOrder t ([] : List (Row A)) := by
  cases t with
  | map | table => exact List.Pairwise.nil
  | list | text => exact SeqRows.nil

/-- What changes neither ids nor keys keeps the order. -/
theorem RowsInOrder.map {t : ObjType} {rows : List (Row A)} (h : RowsInOrder t rows)
    {f : Row A → Row A} (hf : ∀ r, (f r).id = r.id ∧ (f r).key = r.key ∧ (f r).insert = r.insert) :
    RowsInOrder t (rows.map f) := by
  have hkey : ∀ r, (f r).mapKey = r.mapKey := fun r => by
    unfold Row.mapKey
    rw [(hf r).2.1]
  cases t with
  | map | table =>
    refine List.pairwise_map.mpr (List.Pairwise.imp (fun {x y} hxy => ?_) h)
    rw [hkey, hkey, (hf x).1, (hf y).1]
    exact hxy
  | list | text => exact SeqRows.map h hf

theorem rowsInOrder_touch {t : ObjType} {rows : List (Row A)} (h : RowsInOrder t rows)
    (ids : List (OpId A)) (s : OpId A × Option ℤ) : RowsInOrder t (rows.map (Tx.touch ids s)) :=
  h.map fun r => ⟨Tx.touch_id ids s r, Tx.touch_key ids s r, Tx.touch_insert ids s r⟩

/-- The row of an operation that its object takes keeps the order where it goes. -/
theorem RowsInOrder.insertRow {t : ObjType} {rows : List (Row A)} (h : RowsInOrder t rows)
    (hkeys : t.isSequence = false → ∀ r ∈ rows, r.key = .map r.mapKey) {id : OpId A} {pos : ℕ} {op : Op A}
    (hid : ∀ r ∈ rows, r.id < id) (hsuits : op.Suits t) (hplace : Tx.PlacedAt rows pos op) :
    RowsInOrder t (rows.take pos ++ [Tx.row id op] ++ rows.drop pos) := by
  have hseq : SeqRows rows → op.SuitsSeq t →
      SeqRows (rows.take pos ++ [Tx.row id op] ++ rows.drop pos) := by
    intro h hsuits
    obtain ⟨e, hkey⟩ := hsuits.key
    unfold Tx.PlacedAt at hplace
    rw [hkey] at hplace
    obtain ⟨hnext, hlast⟩ := hplace
    rw [List.append_assoc]
    rw [← List.take_append_drop pos rows] at h hid
    cases hins : op.insert with
    | true => exact h.insertion hnext hins (hlast.symm ▸ hkey) hid
    | false =>
      have hupd := hsuits.update hins
      cases e with
      | none => exact absurd hkey hupd.2
      | some e => exact h.update hnext hlast hins hkey hid
  cases t with
  | map =>
    obtain ⟨prop, hkey⟩ := Op.SuitsMap.key hsuits
    have hmapKey : (Tx.row id op).mapKey = prop := by
      unfold Row.mapKey Tx.row
      rw [hkey]
    unfold Tx.PlacedAt at hplace
    rw [hkey] at hplace
    have hplace : pos = Tx.keyEnd rows prop := hplace
    rw [hplace, ← hmapKey]
    exact MapOrder.insert h (hkeys rfl) hid
  | table => exact False.elim hsuits
  | list => exact hseq h hsuits
  | text => exact hseq h hsuits

namespace Tx

variable {base : Log A} {tx : Tx A} {pos : ℕ} {op : Op A} {obj : ObjId A}

namespace Logged

variable (h : tx.Logged base)

include h

theorem mapKeys {t : ObjType} (ht : (tx.log base).MadeAs obj t) (hseq : t.isSequence = false) :
    ∀ r ∈ tx.ops.rows obj, r.key = .map r.mapKey := by
  intro r hr
  obtain ⟨p, hp, rfl, -, hrec⟩ := h.represents.row obj r hr
  have hsuits := h.wf.suits hp ht
  cases t with
  | map =>
    obtain ⟨prop, hkey⟩ := Op.SuitsMap.key hsuits
    unfold Row.mapKey
    rw [hrec.key, hkey]
  | table => exact False.elim hsuits
  | list | text => cases hseq

variable (hp : tx.Placed base pos op) (hplain : ((tx.issue pos op).log base).Plain)

include hp hplain

/-- A new operation is recorded as a successor where it names a predecessor. -/
theorem succ_issue : ∀ obj, ∀ r ∈ (tx.issue pos op).ops.rows obj,
    r.SuccOf ((tx.issue pos op).log base) := by
  intro obj r hr
  rw [log_issue] at hplain ⊢
  have hold := h.detailed (hplain.mono (Set.subset_insert _ _))
  have hnew : ∀ q ∈ tx.log base, q.1 ≠ tx.nextId := fun q hq heq =>
    lt_irrefl _ (heq ▸ h.below q hq)
  by_cases hobj : obj = op.obj
  · subst hobj
    obtain ⟨x, hx | ⟨hdel, rfl⟩, rfl⟩ := mem_rows_issue.mp hr
    · refine (hold.succ _ x hx).touch (p := (tx.nextId, op)) hnew fun hpred hinc => ?_
      obtain ⟨q, hq, -, -, hrec⟩ := h.represents.row _ x hx
      rw [hrec.action]
      exact (hplain _ (Or.inl rfl) hinc).2 q (Or.inr hq) (hrec.id ▸ hpred)
    · have hno : tx.nextId ∉ op.pred := fun hmem => lt_irrefl _ (hp.rooted.pred _ hmem).1
      rw [touch_eq, if_neg (show (row tx.nextId op).id ∉ op.pred from hno)]
      refine ⟨List.nodup_nil, fun y => ⟨fun hy => absurd hy List.not_mem_nil, ?_⟩⟩
      rintro ⟨q, rfl | hq, hpred, -⟩
      · exact absurd hpred hno
      · obtain ⟨-, q', hq', hid, -⟩ := (h.wf.rooted q hq).pred _ hpred
        exact absurd hid (hnew q' hq')
  · rw [rows_issue_ne hobj] at hr
    have hno : r.id ∉ op.pred := by
      intro hpred
      obtain ⟨-, q, hq, hid, hqobj, -⟩ := hp.rooted.pred _ hpred
      obtain ⟨p, hp', hpobj, -, hrec⟩ := h.represents.row obj r hr
      have hqp := h.wf.unique q hq p hp' (hid.trans hrec.id)
      exact hobj (hpobj.symm.trans (hqp ▸ hqobj))
    have htouch := (hold.succ obj r hr).touch (p := (tx.nextId, op)) hnew
      fun hpred => absurd hpred hno
    rwa [touch_eq, if_neg hno] at htouch

theorem order_issue {t : ObjType} (ht : ((tx.issue pos op).log base).MadeAs obj t) :
    RowsInOrder t ((tx.issue pos op).ops.rows obj) := by
  have hwf := h.wf_issue pos hp.rooted
  rw [log_issue] at hplain hwf ht
  have hsub : tx.log base ⊆ Insert.insert (tx.nextId, op) (tx.log base) := Set.subset_insert _ _
  have hold := h.detailed (hplain.mono hsub)
  by_cases hobj : obj = op.obj
  · subst hobj
    obtain ⟨t', ht', hsuits⟩ := hp.rooted.typed
    obtain rfl := hwf.type_unique ht (ht'.mono hsub)
    have horder := hold.order _ t ht'
    rw [rows_issue_touch]
    refine rowsInOrder_touch ?_ _ _
    split
    · rw [List.append_nil, List.take_append_drop]
      exact horder
    · rename_i hdel
      exact horder.insertRow (fun hseq => h.mapKeys ht' hseq)
        (fun r hr => OpId.lt_of_counter (h.fresh.ids _ r hr)) hsuits (hp.place hplain hdel)
  · rw [rows_issue_ne hobj]
    rcases h.represents.known_or_empty h.wf hwf hsub ht with ht' | hnil
    · exact hold.order obj t ht'
    · rw [hnil]
      exact RowsInOrder.nil t

theorem text_issue (ht : ((tx.issue pos op).log base).MadeAs obj .text) :
    TextIndexed ((tx.issue pos op).ops.rows obj) := by
  have hwf := h.wf_issue pos hp.rooted
  rw [log_issue] at hplain hwf ht
  have hsub : tx.log base ⊆ Insert.insert (tx.nextId, op) (tx.log base) := Set.subset_insert _ _
  have hold := h.detailed (hplain.mono hsub)
  intro r hr hwidth
  by_cases hobj : obj = op.obj
  · subst hobj
    obtain ⟨t', ht', hsuits⟩ := hp.rooted.typed
    obtain rfl := hwf.type_unique ht (ht'.mono hsub)
    obtain ⟨x, hx | ⟨hdel, rfl⟩, rfl⟩ := mem_rows_issue.mp hr
    · have hx' := hold.text _ ht' x hx
      rw [touch_eq] at hwidth ⊢
      split at hwidth
      · -- what is no increment leaves no width behind
        have hinc : op.action.getIncrementValue = none := by
          cases hact : op.action with
          | increment n =>
            obtain ⟨⟨prop, hkey⟩, -⟩ := hplain _ (Or.inl rfl) (show op.action.isIncrement = true by
              rw [hact]; rfl)
            obtain ⟨e, hkey'⟩ := Op.SuitsSeq.key hsuits
            rw [show op.key = .map prop from hkey] at hkey'
            cases hkey'
          | make | delete | put | markBegin | markEnd => rfl
        rw [hinc] at hwidth
        have htext : (x.addSucc (tx.nextId, none)).text = none := by simp [Row.addSucc]
        rw [htext] at hwidth
        exact absurd hwidth (lt_irrefl 0)
      · rw [if_neg ‹_›]
        exact hx' hwidth
    · have hno : (row tx.nextId op).id ∉ op.pred := fun hmem =>
        lt_irrefl _ (hp.rooted.pred _ hmem).1
      rw [touch_eq, if_neg hno] at hwidth ⊢
      refine ⟨rfl, ?_⟩
      -- a mark has no width
      by_contra hmark
      have hmark : op.action.isMark = true := Bool.not_eq_false _ ▸ hmark
      have hzero : op.action.width = 0 := by
        unfold OpType.width OpType.asStr
        rw [hmark]
        rfl
      have hwidth : 0 < op.action.width := hwidth
      omega
  · rw [rows_issue_ne hobj] at hr
    rcases h.represents.known_or_empty h.wf hwf hsub ht with ht' | hnil
    · exact hold.text obj ht' r hr hwidth
    · rw [hnil] at hr
      cases hr

omit h hp hplain in
/-- What holds of new rows and is kept by successors. -/
theorem forall_rows_issue {P : Row A → Prop} (hadd : ∀ r s, P r → P (r.addSucc s))
    (hrow : ∀ id op, P (row id op)) (hold : ∀ obj, ∀ r ∈ tx.ops.rows obj, P r) (obj : ObjId A) :
    ∀ r ∈ (tx.issue pos op).ops.rows obj, P r := by
  intro r hr
  by_cases hobj : obj = op.obj
  · subst hobj
    have htouch : ∀ {x : Row A}, P x →
        P (touch op.pred (tx.nextId, op.action.getIncrementValue) x) := by
      intro x hx
      rw [touch_eq]
      split
      · exact hadd x _ hx
      · exact hx
    obtain ⟨x, hx | ⟨-, rfl⟩, rfl⟩ := mem_rows_issue.mp hr
    · exact htouch (hold _ x hx)
    · exact htouch (hrow _ _)
  · rw [rows_issue_ne hobj] at hr
    exact hold obj r hr

theorem detailed_issue : Detailed (tx.issue pos op).ops ((tx.issue pos op).log base) where
  succ := h.succ_issue hp hplain
  indexed obj := forall_rows_issue (fun _ s hr => Row.Indexed.addSucc hr s) Row.indexed_row
    (h.detailed (hplain.mono subset_issue)).indexed obj
  order _ _ ht := h.order_issue hp hplain ht
  text _ ht := h.text_issue hp hplain ht
  width obj := forall_rows_issue (fun _ s hr => Row.WidthOf.addSucc hr s) Row.widthOf_row
    (h.detailed (hplain.mono subset_issue)).width obj

omit hplain in
/-- **One operation** is added to the log, and the columns record it. -/
theorem issue : (tx.issue pos op).Logged base where
  wf := h.wf_issue pos hp.rooted
  below := by
    rw [log_issue, counter_nextId_issue]
    rintro p (rfl | hp')
    · exact Nat.lt_succ_self _
    · exact (h.below p hp').trans (Nat.lt_succ_self _)
  represents := h.represents_issue
  detailed hplain := h.detailed_issue hp hplain

end Logged

end Tx

end AutomergeR
