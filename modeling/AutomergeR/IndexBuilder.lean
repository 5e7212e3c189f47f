import Mathlib.Data.List.Sort
import AutomergeR.OpSet
import AutomergeR.Runs.Grouped

/-! # The index columns

`op_set2/op_set/index.rs` and the loop of `storage/load/reconstruct_document.rs`: a saved
document has no index columns. When it is loaded the builder goes over the operations once
and works out which are visible, which is the last visible one of its key or element, how
wide they are, and which successors are increments of a counter. A counter stands before its
increments, so for each successor that may be one the builder notes where its entry is.
-/

namespace AutomergeR

variable {A : Type}

/-- `Op`, without the index columns. -/
structure DocOp (A : Type) where
  obj : ObjId A
  id : OpId A
  key : Key A
  insert : Bool
  action : OpType
  succ : List (OpId A)
  deriving DecidableEq

/-- What is saved of a row. -/
def Row.docOp (r : Row A) (obj : ObjId A) : DocOp A :=
  ⟨obj, r.id, r.key, r.insert, r.action, r.succ.map Prod.fst⟩

/-- The object, and `elemid_or_key`. -/
def DocOp.runKey (op : DocOp A) : ObjId A × Key A :=
  (op.obj, if op.insert then .seq (some op.id) else op.key)

/-- The entries of an operation. `succ` counts the successors that are no increments. -/
structure IndexRow where
  succ : ℕ
  top : Bool
  width : ℕ
  incs : List (Option ℤ)

/-- The vectors are one list of rows, the flat vector of `incs` cut at the operations. -/
structure IndexBuilder (A : Type) where
  /-- where the entries are that wait for an operation with this id -/
  counters : OpId A → List (ℕ × ℕ)
  rows : List IndexRow
  objInfo : List (OpId A × ObjType)
  lastFlush : ℕ

/-- `u32::MAX`. -/
def u32Max : ℕ := 2 ^ 32 - 1

/-- `vis_num`. -/
def DocOp.visNum (op : DocOp A) : ℕ :=
  if op.action.isIncrement then u32Max else op.succ.length

namespace IndexBuilder

def new : IndexBuilder A := ⟨fun _ => [], [], [], 0⟩

/-- The loop of `flush`, over the rows from the last on. -/
def markTop : List IndexRow → List IndexRow
  | [] => []
  | r :: rows => if r.succ = 0 then { r with top := true } :: rows else r :: markTop rows

def flush (b : IndexBuilder A) : IndexBuilder A :=
  { b with
    rows := b.rows.take b.lastFlush ++ (markTop (b.rows.drop b.lastFlush).reverse).reverse
    lastFlush := b.rows.length }

/-- A successor turns out to be an increment. -/
def found (i : ℤ) (rows : List IndexRow) (entry : ℕ × ℕ) : List IndexRow :=
  rows.modify entry.1 fun r => { r with succ := r.succ - 1, incs := r.incs.set entry.2 (some i) }

variable [DecidableEq A]

def processOp (b : IndexBuilder A) (op : DocOp A) : IndexBuilder A :=
  let rows := b.rows ++ [⟨op.visNum, false, op.action.width, []⟩]
  { counters := Function.update b.counters op.id []
    rows :=
      match op.action.getIncrementValue with
      | some i => (b.counters op.id).foldl (found i) rows
      | none => rows
    objInfo :=
      match op.action.objType? with
      | some t => (op.id, t) :: b.objInfo
      | none => b.objInfo
    lastFlush := b.lastFlush }

def processSucc (b : IndexBuilder A) (opIsCounter : Bool) (id : OpId A) : IndexBuilder A :=
  let opIdx := b.rows.length - 1
  let subIdx := ((b.rows[opIdx]?).map fun r => r.incs.length).getD 0
  { b with
    counters :=
      if opIsCounter then Function.update b.counters id (b.counters id ++ [(opIdx, subIdx)])
      else b.counters
    rows := b.rows.modify opIdx fun r => { r with incs := r.incs ++ [none] } }

/-- One turn of the loop. -/
def process (b : IndexBuilder A) (op : DocOp A) : IndexBuilder A :=
  op.succ.foldl (fun b id => b.processSucc op.action.isCounter id) (b.processOp op)

/-- All of them; `flush` comes where the key changes, and at the end. -/
def build (ops : List (DocOp A)) : IndexBuilder A :=
  Runs.scan DocOp.runKey flush process none new ops

end IndexBuilder

namespace OpSet

/-- The columns of a document, with the indexes of a builder: `set_indexes`. -/
def ofDocOps [DecidableEq A] (ops : List (DocOp A)) (b : IndexBuilder A) : OpSet A where
  rows obj := ((ops.zip b.rows).filter fun x => x.1.obj = obj).map fun x =>
    { id := x.1.id
      key := x.1.key
      insert := x.1.insert
      action := x.1.action
      succ := x.1.succ.zip x.2.incs
      visible := x.2.succ = 0
      top := x.2.top
      text := if x.2.succ = 0 then some x.2.width else none }
  objInfo := b.objInfo

variable [LinearOrder A]

/-- The objects in the order of the columns. -/
def objects (s : OpSet A) : List (ObjId A) :=
  none :: ((s.objInfo.map Prod.fst).dedup.insertionSort (· ≤ ·)).map some

/-- `export`: what is saved of the columns. -/
def docOps (s : OpSet A) : List (DocOp A) :=
  s.objects.flatMap fun obj => (s.rows obj).map fun r => r.docOp obj

/-- The op set of the document that is saved and loaded. -/
def reload (s : OpSet A) : OpSet A := ofDocOps s.docOps (.build s.docOps)

end OpSet

/-! ## The entries that wait -/

namespace IndexBuilder

/-- The places of an id, counted from `k` on. -/
def places [DecidableEq A] (id : OpId A) (k : ℕ) : List (OpId A) → List ℕ
  | [] => []
  | s :: succ => if s = id then k :: places id (k + 1) succ else places id (k + 1) succ

/-- Where an id is a successor of a counter. -/
def waiting [DecidableEq A] (id : OpId A) (k : ℕ) : List (DocOp A) → List (ℕ × ℕ)
  | [] => []
  | op :: ops =>
    (if op.action.isCounter then (places id 0 op.succ).map fun j => (k, j) else []) ++
      waiting id (k + 1) ops

variable [DecidableEq A] {id : OpId A}

theorem waiting_append (ops ops' : List (DocOp A)) : ∀ k,
    waiting id k (ops ++ ops') = waiting id k ops ++ waiting id (k + ops.length) ops' := by
  induction ops with
  | nil => exact fun _ => rfl
  | cons op ops ih =>
    intro k
    rw [List.cons_append, waiting, waiting, ih, List.append_assoc, List.length_cons,
      Nat.add_right_comm, ← Nat.add_assoc]

omit [DecidableEq A] in
theorem found_append (i : ℤ) (pre : List IndexRow) (r : IndexRow) (post : List IndexRow) (j : ℕ) :
    found i (pre ++ r :: post) (pre.length, j) =
      pre ++ { r with succ := r.succ - 1, incs := r.incs.set j (some i) } :: post := by
  unfold found
  rw [List.modify_eq_take_cons_drop (by simp)]
  simp

/-- The entries of one operation that waited for the id. -/
theorem foldl_found_row (i : ℤ) (pre post : List IndexRow) (g : OpId A → Option ℤ)
    (succ : List (OpId A)) : ∀ (r : IndexRow) (incs : List (Option ℤ)), r.incs = incs ++ succ.map g →
      ((places id incs.length succ).map fun j => (pre.length, j)).foldl (found i) (pre ++ r :: post) =
        pre ++ { r with
          succ := r.succ - succ.count id
          incs := incs ++ succ.map fun s => if s = id then some i else g s } :: post := by
  induction succ with
  | nil =>
    intro r incs hr
    rw [List.map_nil, List.append_nil] at hr
    subst hr
    simp [places]
  | cons s succ ih =>
    intro r incs hr
    rw [places]
    split
    · rename_i hs
      have hset : r.incs.set incs.length (some i) = (incs ++ [some i]) ++ succ.map g := by
        rw [hr]
        simp
      rw [List.map_cons, List.foldl_cons, found_append]
      have hrest := ih { r with succ := r.succ - 1, incs := r.incs.set incs.length (some i) }
        (incs ++ [some i]) hset
      rw [List.length_append] at hrest
      rw [show incs.length + 1 = incs.length + [some i].length from rfl, hrest]
      simp [hs, Nat.sub_sub, Nat.add_comm]
    · rename_i hs
      have hrest := ih r (incs ++ [g s]) (by rw [hr]; simp)
      rw [List.length_append] at hrest
      rw [show incs.length + 1 = incs.length + [g s].length from rfl, hrest]
      simp [hs]

/-- The entries of all operations. -/
theorem foldl_found (i : ℤ) {g : DocOp A → OpId A → Option ℤ} {f : DocOp A → IndexRow}
    (hf : ∀ op, (f op).incs = op.succ.map (g op)) (post : List IndexRow) (ops : List (DocOp A)) :
    ∀ pre : List IndexRow, (waiting id pre.length ops).foldl (found i) (pre ++ (ops.map f ++ post)) =
      pre ++ (ops.map (fun op =>
        if op.action.isCounter then { f op with
          succ := (f op).succ - op.succ.count id
          incs := op.succ.map fun s => if s = id then some i else g op s }
        else f op) ++ post) := by
  induction ops with
  | nil => exact fun _ => rfl
  | cons op ops ih =>
    intro pre
    rw [waiting, List.foldl_append, List.map_cons, List.cons_append, List.map_cons, List.cons_append]
    have hnext : ∀ r : IndexRow, (waiting id (pre.length + 1) ops).foldl (found i)
        (pre ++ r :: (ops.map f ++ post)) = pre ++ r :: (ops.map _ ++ post) := fun r => by
      have hrest := ih (pre ++ [r])
      rw [List.length_append, List.append_assoc, List.append_assoc] at hrest
      exact hrest
    split
    · have hrow := @foldl_found_row A _ id i pre (ops.map f ++ post) (g op) op.succ (f op) [] (hf op)
      rw [List.length_nil] at hrow
      rw [hrow, hnext]
      rfl
    · rw [List.foldl_nil, hnext]

/-! ## What an entry says -/

/-- The amount, where the operation with this id is among `ops` and increments the counter. -/
def incOf (ops : List (DocOp A)) (op : DocOp A) (id : OpId A) : Option ℤ :=
  if op.action.isCounter then (ops.find? fun x => x.id = id).bind fun x => x.action.getIncrementValue
  else none

/-- The successors that are no increments. -/
def left (ops : List (DocOp A)) (op : DocOp A) : ℕ :=
  if op.action.isIncrement then u32Max else op.succ.countP fun id => (incOf ops op id).isNone

def entry (ops : List (DocOp A)) (top : Bool) (op : DocOp A) : IndexRow :=
  ⟨left ops op, top, op.action.width, op.succ.map (incOf ops op)⟩

theorem find?_id_eq_none {ops : List (DocOp A)} {id : OpId A} (h : id ∉ ops.map DocOp.id) :
    ops.find? (fun y => y.id = id) = none :=
  List.find?_eq_none.mpr fun _ hy heq => h (of_decide_eq_true heq ▸ List.mem_map_of_mem hy)

/-- An id that has not come up has no amount. -/
theorem incOf_eq_none {ops : List (DocOp A)} {id : OpId A} (h : id ∉ ops.map DocOp.id) (op : DocOp A) :
    incOf ops op id = none := by
  unfold incOf
  rw [find?_id_eq_none h]
  split <;> rfl

theorem incOf_append {ops : List (DocOp A)} {x : DocOp A} (hx : x.id ∉ ops.map DocOp.id)
    (op : DocOp A) (id : OpId A) : incOf (ops ++ [x]) op id =
      if op.action.isCounter ∧ id = x.id then x.action.getIncrementValue else incOf ops op id := by
  unfold incOf
  rw [List.find?_append]
  cases hc : op.action.isCounter with
  | false => simp
  | true =>
    by_cases hid : id = x.id
    · subst hid
      simp [find?_id_eq_none hx]
    · have hne : [x].find? (fun y => y.id = id) = none := by
        simp [Ne.symm hid]
      simp [hid, hne]

/-- The successors that may be increments are fewer by those that have been found. -/
theorem countP_found {g : OpId A → Option ℤ} {i : ℤ} (hg : g id = none) (succ : List (OpId A)) :
    succ.count id ≤ succ.countP (fun s => (g s).isNone) ∧
      succ.countP (fun s => (g s).isNone) - succ.count id =
        succ.countP fun s => (if s = id then some i else g s).isNone := by
  induction succ with
  | nil => simp
  | cons s succ ih =>
    obtain ⟨hle, heq⟩ := ih
    by_cases hs : s = id
    · subst hs
      simp only [List.count_cons_self, List.countP_cons, hg, Option.isNone_none, if_true,
        Option.isNone_some, Bool.false_eq_true, if_false]
      omega
    · rw [List.count_cons_of_ne hs, List.countP_cons, List.countP_cons, if_neg hs]
      omega

/-- What one more operation changes of the entries before it. -/
theorem entry_append {ops : List (DocOp A)} {x : DocOp A} (hx : x.id ∉ ops.map DocOp.id)
    (top : Bool) (op : DocOp A) : entry (ops ++ [x]) top op =
      match x.action.getIncrementValue with
      | some i =>
        if op.action.isCounter then { entry ops top op with
          succ := (entry ops top op).succ - op.succ.count x.id
          incs := op.succ.map fun s => if s = x.id then some i else incOf ops op s }
        else entry ops top op
      | none => entry ops top op := by
  have hold : incOf ops op x.id = none := incOf_eq_none hx op
  have hinc : ∀ id, incOf (ops ++ [x]) op id =
      if op.action.isCounter ∧ id = x.id then x.action.getIncrementValue else incOf ops op id :=
    incOf_append hx op
  cases hval : x.action.getIncrementValue with
  | none =>
    have hsame : incOf (ops ++ [x]) op = incOf ops op := by
      funext id
      rw [hinc, hval]
      split
      · rename_i h
        rw [h.2, hold]
      · rfl
    unfold entry left
    rw [hsame]
  | some i =>
    cases hc : op.action.isCounter with
    | false =>
      have hsame : incOf (ops ++ [x]) op = incOf ops op := by
        funext id
        rw [hinc, hc]
        simp
      unfold entry left
      rw [hsame]
      rfl
    | true =>
      have hnew : incOf (ops ++ [x]) op = fun s => if s = x.id then some i else incOf ops op s := by
        funext id
        rw [hinc, hc, hval]
        simp
      have hno : op.action.isIncrement = false := by
        cases hact : op.action with
        | increment n =>
          rw [hact] at hc
          cases hc
        | make | delete | put | markBegin | markEnd => rfl
      unfold entry left
      rw [hnew, hno]
      simp only [Bool.false_eq_true, if_false, if_true]
      rw [(countP_found hold op.succ).2]

/-! ## The loop -/

/-- The successors of the last operation are gone through. -/
theorem foldl_processSucc (c : Bool) (pre : List IndexRow) (succ : List (OpId A)) :
    ∀ (b : IndexBuilder A) (r : IndexRow), b.rows = pre ++ [r] →
      (succ.foldl (fun b id => b.processSucc c id) b).rows =
          pre ++ [{ r with incs := r.incs ++ succ.map fun _ => none }] ∧
        (∀ id, (succ.foldl (fun b id => b.processSucc c id) b).counters id = b.counters id ++
          if c then (places id r.incs.length succ).map fun j => (pre.length, j) else []) ∧
        (succ.foldl (fun b id => b.processSucc c id) b).objInfo = b.objInfo ∧
        (succ.foldl (fun b id => b.processSucc c id) b).lastFlush = b.lastFlush := by
  induction succ with
  | nil =>
    intro b r hb
    refine ⟨by simpa using hb, fun id => ?_, rfl, rfl⟩
    cases c <;> simp [places]
  | cons s succ ih =>
    intro b r hb
    have hidx : b.rows.length - 1 = pre.length := by
      rw [hb]
      simp
    have hget : b.rows[pre.length]? = some r := by
      rw [hb]
      simp
    have hrows : (b.processSucc c s).rows = pre ++ [{ r with incs := r.incs ++ [none] }] := by
      unfold processSucc
      dsimp only
      rw [hidx, hb, List.modify_eq_take_cons_drop (by simp)]
      simp
    obtain ⟨hr, hcnt, hobj, hfl⟩ := ih _ _ hrows
    rw [List.foldl_cons]
    refine ⟨by rw [hr]; simp, fun id => ?_, hobj, hfl⟩
    rw [hcnt]
    unfold processSucc
    dsimp only
    rw [hidx, hget]
    cases c with
    | false => simp
    | true =>
      simp only [if_true, Option.map_some, Option.getD_some, List.length_append, List.length_cons,
        List.length_nil, Nat.zero_add]
      rw [places]
      by_cases hs : s = id
      · subst hs
        rw [Function.update_self, if_pos rfl]
        simp
      · rw [Function.update_of_ne (Ne.symm hs), if_neg hs]

/-- The last of its key or element that no successor hides. -/
def isTop [LinearOrder A] (ops : List (DocOp A)) (op : DocOp A) : Bool :=
  left ops op = 0 && ops.all fun x => x.runKey ≠ op.runKey || x.id ≤ op.id || left ops x ≠ 0

/-- The objects that are made. -/
def made (ops : List (DocOp A)) : List (OpId A × ObjType) :=
  (ops.filterMap fun op => op.action.objType?.map fun t => (op.id, t)).reverse

end IndexBuilder

section

variable [LinearOrder A]

open IndexBuilder

/-- The operations `f` and `run` have been gone through, and the entries of `f` are done. -/
structure Flushed (all f run : List (DocOp A)) (b : IndexBuilder A) : Prop where
  rows : b.rows = (f ++ run).map fun op => entry (f ++ run) (f.contains op && isTop all op) op
  counters : ∀ id, id ∉ (f ++ run).map DocOp.id → b.counters id = waiting id 0 (f ++ run)
  objInfo : b.objInfo = made (f ++ run)
  lastFlush : b.lastFlush = f.length

/-- Ids are in use once, and successors come behind, under the same key. -/
structure Successive (ops : List (DocOp A)) : Prop where
  nodup : (ops.map DocOp.id).Nodup
  behind : ∀ pre x post, ops = pre ++ x :: post → ∀ s ∈ x.succ, s ∉ (pre ++ [x]).map DocOp.id
  onKey : ∀ x ∈ ops, ∀ y ∈ ops, y.id ∈ x.succ → y.runKey = x.runKey
  sorted : ops.Pairwise fun x y => x.runKey = y.runKey → x.id < y.id

variable {all f run : List (DocOp A)} {b : IndexBuilder A} {x : DocOp A}

theorem Flushed.process (h : Flushed all f run b) (hnd : ((f ++ (run ++ [x])).map DocOp.id).Nodup)
    (hbehind : ∀ s ∈ x.succ, s ∉ ((f ++ run) ++ [x]).map DocOp.id) :
    Flushed all f (run ++ [x]) (b.process x) := by
  rw [← List.append_assoc] at hnd
  have hx : x.id ∉ (f ++ run).map DocOp.id := by
    rw [List.map_append, List.nodup_append] at hnd
    intro hmem
    exact hnd.2.2 _ hmem _ (by simp) rfl
  have hxf : f.contains x = false := by
    rw [Bool.eq_false_iff]
    intro hc
    exact hx (List.mem_map_of_mem (List.mem_append_left run (List.contains_iff_mem.mp hc)))
  -- the entries before it
  have hrows : (b.processOp x).rows = ((f ++ run).map fun op =>
      entry (f ++ run ++ [x]) (f.contains op && isTop all op) op) ++
        [⟨x.visNum, false, x.action.width, []⟩] := by
    unfold processOp
    dsimp only
    rw [h.rows, h.counters x.id hx]
    have hentry : ∀ op, entry (f ++ run ++ [x]) (f.contains op && isTop all op) op = _ :=
      fun op => entry_append hx _ op
    cases hval : x.action.getIncrementValue with
    | none =>
      simp only [hval] at hentry
      simp only [hentry]
    | some i =>
      simp only [hval] at hentry
      simp only [hentry]
      exact @foldl_found A _ x.id i (incOf (f ++ run))
        (fun op => entry (f ++ run) (f.contains op && isTop all op) op) (fun _ => rfl) _ (f ++ run) []
  obtain ⟨hr, hcnt, hobj, hfl⟩ := foldl_processSucc x.action.isCounter _ x.succ _ _ hrows
  have hnone : ∀ s ∈ x.succ, incOf (f ++ run ++ [x]) x s = none :=
    fun s hs => incOf_eq_none (hbehind s hs) x
  have hlast : (⟨x.visNum, false, x.action.width, [] ++ x.succ.map fun _ => none⟩ : IndexRow) =
      entry (f ++ run ++ [x]) false x := by
    unfold entry left DocOp.visNum
    rw [List.nil_append, List.map_congr_left hnone]
    congr 1
    split
    · rfl
    · symm
      exact List.countP_eq_length.mpr fun s hs => by rw [hnone s hs]; rfl
  have hassoc : f ++ (run ++ [x]) = f ++ run ++ [x] := (List.append_assoc f run [x]).symm
  refine ⟨?_, fun id hid => ?_, ?_, ?_⟩
  · rw [hassoc]
    refine hr.trans (Eq.trans ?_ List.map_append.symm)
    rw [List.map_singleton, hxf, Bool.false_and, ← hlast]
  · rw [hassoc] at hid ⊢
    have hid' : id ∉ (f ++ run).map DocOp.id := fun hmem =>
      hid (by rw [List.map_append]; exact List.mem_append_left _ hmem)
    have hne : id ≠ x.id := by
      rintro rfl
      exact hid (by simp)
    refine (hcnt id).trans ?_
    have hold : (b.processOp x).counters id = waiting id 0 (f ++ run) := by
      unfold processOp
      exact (Function.update_of_ne hne _ _).trans (h.counters id hid')
    rw [hold, waiting_append (f ++ run) [x], Nat.zero_add, List.length_map]
    simp only [waiting, List.length_nil, List.append_nil]
  · rw [hassoc]
    refine hobj.trans ?_
    have hold : (f ++ run).filterMap (fun op => op.action.objType?.map fun t => (op.id, t)) =
        b.objInfo.reverse := by
      rw [h.objInfo, made, List.reverse_reverse]
    unfold processOp made
    rw [List.filterMap_append, List.reverse_append, hold, List.reverse_reverse]
    cases hty : x.action.objType? <;> simp [hty]
  · exact hfl.trans h.lastFlush

/-! ## The end of a run -/

omit [LinearOrder A] in
theorem markTop_snoc (rows : List IndexRow) (r : IndexRow) : markTop (rows ++ [r]) =
    if rows.any (fun x => x.succ = 0) then markTop rows ++ [r] else rows ++ markTop [r] := by
  induction rows with
  | nil => rfl
  | cons x rows ih =>
    rw [List.cons_append, markTop, markTop, List.any_cons]
    by_cases hx : x.succ = 0
    · simp [hx]
    · simp only [hx, if_false, decide_false, Bool.false_or, ih]
      split <;> rfl

omit [LinearOrder A] in
theorem IndexRow.with_top {r : IndexRow} {t : Bool} (h : r.top = t) : { r with top := t } = r := by
  rw [← h]

/-- The last of the run that is visible is marked. -/
theorem markTop_run {f : DocOp A → IndexRow} (hf : ∀ op ∈ run, (f op).top = false)
    (hsorted : run.Pairwise fun x y => x.id < y.id) :
    (markTop (run.map f).reverse).reverse = run.map fun op => { f op with
      top := (f op).succ = 0 && run.all fun x => x.id ≤ op.id || (f x).succ ≠ 0 } := by
  induction run with
  | nil => rfl
  | cons op run ih =>
    obtain ⟨hop, hsorted⟩ := List.pairwise_cons.mp hsorted
    have ih := ih (fun x hx => hf x (List.mem_cons_of_mem op hx)) hsorted
    have hany : (run.map f).reverse.any (fun x => x.succ = 0) =
        !run.all fun x => decide (x.id ≤ op.id) || (f x).succ ≠ 0 := by
      rw [Bool.eq_iff_iff, List.any_reverse, List.any_map, List.not_all_eq_any_not, List.any_eq_true,
        List.any_eq_true]
      refine exists_congr fun x => and_congr_right fun hx => ?_
      simp [not_le_of_gt (hop x hx)]
    have hrest : run.map (fun x => { f x with
          top := (f x).succ = 0 && (op :: run).all fun y => decide (y.id ≤ x.id) || (f y).succ ≠ 0 }) =
        run.map fun x => { f x with
          top := (f x).succ = 0 && run.all fun y => decide (y.id ≤ x.id) || (f y).succ ≠ 0 } :=
      List.map_congr_left fun x hx => by simp [(hop x hx).le]
    rw [List.map_cons, List.reverse_cons, markTop_snoc, hany, List.map_cons, hrest]
    cases hall : run.all fun x => decide (x.id ≤ op.id) || (f x).succ ≠ 0 with
    | false =>
      simp only [Bool.not_false, if_true, List.reverse_append, ih, List.all_cons, hall]
      simp [IndexRow.with_top (hf op List.mem_cons_self)]
    | true =>
      have hnone : run.map (fun x => { f x with
          top := (f x).succ = 0 && run.all fun y => decide (y.id ≤ x.id) || (f y).succ ≠ 0 }) =
          run.map f := by
        refine List.map_congr_left fun x hx => ?_
        have hx' := List.all_eq_true.mp hall x hx
        have hne : (f x).succ ≠ 0 := by simpa [not_le_of_gt (hop x hx)] using hx'
        simp [hne, IndexRow.with_top (hf x (List.mem_cons_of_mem op hx))]
      rw [hnone]
      simp only [Bool.not_true, Bool.false_eq_true, if_false, List.reverse_append, List.reverse_reverse,
        List.all_cons, hall, markTop]
      by_cases hz : (f op).succ = 0
      · simp [hz]
      · simp [hz, IndexRow.with_top (hf op List.mem_cons_self)]

/-- What the flush finds is what there is in the end. -/
theorem Flushed.flush (h : Flushed all f run b) (hleft : ∀ op ∈ run, left (f ++ run) op = left all op)
    (htop : ∀ op ∈ run, isTop all op =
      (left all op = 0 && run.all fun x => x.id ≤ op.id || left all x ≠ 0))
    (hsorted : run.Pairwise fun x y => x.id < y.id) (hdisj : ∀ op ∈ run, f.contains op = false) :
    Flushed all (f ++ run) [] (IndexBuilder.flush b) := by
  have hrows : (IndexBuilder.flush b).rows =
      (f ++ run).map fun op => entry (f ++ run) ((f ++ run).contains op && isTop all op) op := by
    unfold IndexBuilder.flush
    dsimp only
    have hlen : (f.map fun op =>
        entry (f ++ run) (f.contains op && isTop all op) op).length = f.length := List.length_map _
    have hnot : ∀ op ∈ run, (f.contains op && isTop all op) = false := fun op hop => by
      rw [hdisj op hop, Bool.false_and]
    rw [h.rows, h.lastFlush, List.map_append, List.take_left' hlen, List.drop_left' hlen,
      markTop_run hnot hsorted, List.map_append]
    congr 1
    · refine List.map_congr_left fun op hop => ?_
      rw [List.contains_iff_mem.mpr hop, List.contains_iff_mem.mpr (List.mem_append_left run hop)]
    · refine List.map_congr_left fun op hop => ?_
      have hall : (run.all fun x => decide (x.id ≤ op.id) || left (f ++ run) x ≠ 0) =
          run.all fun x => decide (x.id ≤ op.id) || left all x ≠ 0 := by
        rw [Bool.eq_iff_iff, List.all_eq_true, List.all_eq_true]
        exact forall₂_congr fun x hx => by rw [hleft x hx]
      rw [List.contains_iff_mem.mpr (List.mem_append_right f hop), Bool.true_and, htop op hop]
      unfold entry
      dsimp only
      rw [hall, hleft op hop]
  refine ⟨by rw [List.append_nil]; exact hrows, fun id hid => ?_, ?_, ?_⟩
  · rw [List.append_nil] at hid ⊢
    exact h.counters id hid
  · rw [List.append_nil]
    exact h.objInfo
  · show b.rows.length = _
    rw [h.rows, List.length_map]

/-! ## All runs -/

theorem Successive.not_mem (h : Successive all) {pre post : List (DocOp A)} (heq : all = pre ++ post)
    {op : DocOp A} (hop : op ∈ post) : op.id ∉ pre.map DocOp.id := by
  have hnd := h.nodup
  rw [heq, List.map_append, List.nodup_append] at hnd
  exact fun hmem => hnd.2.2 _ hmem _ (List.mem_map_of_mem hop) rfl

/-- The operations of a run are gone through. -/
theorem Flushed.foldl_process (h : Successive all) (post : List (DocOp A)) : ∀ {run : List (DocOp A)}
    {b : IndexBuilder A}, Flushed all f run b → ∀ rest, all = f ++ (run ++ post) ++ rest →
      Flushed all f (run ++ post) (post.foldl IndexBuilder.process b) := by
  induction post with
  | nil =>
    intro run b hb rest _
    rwa [List.append_nil]
  | cons x post ih =>
    intro run b hb rest heq
    have hcut : all = f ++ run ++ x :: (post ++ rest) := by
      rw [heq]
      simp
    have hnd := h.nodup
    have hx : Flushed all f (run ++ [x]) (b.process x) := by
      refine hb.process ?_ (h.behind _ _ _ hcut)
      rw [show all = f ++ (run ++ [x]) ++ (post ++ rest) by rw [heq]; simp, List.map_append] at hnd
      exact hnd.of_append_left
    have hrest := ih hx rest (by rw [heq]; simp)
    rwa [List.append_assoc, List.singleton_append] at hrest

theorem Flushed.onRun (h : Successive all) (hb : Flushed all f [] b) {rest : List (DocOp A)}
    (heq : all = f ++ run ++ rest) {k : ObjId A × Key A} (hrun : ∀ op ∈ run, op.runKey = k)
    (hother : ∀ op ∈ f ++ rest, op.runKey ≠ k) : Flushed all (f ++ run) []
      (Runs.onRun IndexBuilder.flush IndexBuilder.process b (k, run)) := by
  have hmem : ∀ op ∈ all, op.runKey = k → op ∈ run := by
    intro op hop hk
    rw [heq, List.append_assoc, List.mem_append, List.mem_append] at hop
    rcases hop with hop | hop | hop
    · exact absurd hk (hother op (List.mem_append_left rest hop))
    · exact hop
    · exact absurd hk (hother op (List.mem_append_right f hop))
  have hall : ∀ op ∈ run, op ∈ all := fun op hop => by
    rw [heq]
    simp [hop]
  unfold Runs.onRun
  split
  · rename_i hnil
    have hnil : run = [] := List.isEmpty_iff.mp hnil
    rw [hnil, List.append_nil]
    exact hb
  · have hrows : Flushed all f run (run.foldl IndexBuilder.process b) :=
      Flushed.foldl_process h run hb rest heq
    refine hrows.flush (fun op hop => ?_) (fun op hop => ?_) ?_
      fun op hop => ?_
    · -- the successors of the run are in it
      have hinc : ∀ id ∈ op.succ, incOf (f ++ run) op id = incOf all op id := by
        intro id hid
        unfold incOf
        rw [heq, @List.find?_append _ _ (f ++ run) rest]
        cases hfind : (f ++ run).find? fun x => x.id = id with
        | some y => rfl
        | none =>
          rw [Option.none_or]
          cases hlate : rest.find? fun x => x.id = id with
          | none => rfl
          | some y =>
            have hy := List.mem_of_find?_eq_some hlate
            have hyid : y.id = id := by simpa using List.find?_some hlate
            have hkey := h.onKey op (hall op hop) y (heq ▸ List.mem_append_right _ hy) (hyid.symm ▸ hid)
            exact absurd (hkey.trans (hrun op hop)) (hother y (List.mem_append_right f hy))
      unfold left
      rw [List.countP_congr fun id hid => by rw [hinc id hid]]
    · unfold isTop
      congr 1
      rw [Bool.eq_iff_iff, List.all_eq_true, List.all_eq_true]
      constructor
      · intro hx x hx'
        simpa [hrun x hx', hrun op hop] using hx x (hall x hx')
      · intro hx x hx'
        by_cases hk : x.runKey = k
        · simpa [hk, hrun op hop] using hx x (hmem x hx' hk)
        · simp [hk, hrun op hop]
    · have hsorted := h.sorted
      rw [heq, List.append_assoc] at hsorted
      have hmid := (List.pairwise_append.mp (List.pairwise_append.mp hsorted).2.1).1
      exact hmid.imp_of_mem fun {x y} hx hy hlt => hlt ((hrun x hx).trans (hrun y hy).symm)
    · rw [Bool.eq_false_iff]
      intro hc
      exact h.not_mem (by rw [heq, List.append_assoc]) (List.mem_append_left rest hop)
        (List.mem_map_of_mem (List.contains_iff_mem.mp hc))

/-- **The builder finds for every operation what the list says of it**, where the operations on
one key or element stand together, by their ids. -/
theorem build_spec (h : Successive all) (hg : Runs.Grouped DocOp.runKey all) :
    (IndexBuilder.build all).rows = all.map (fun op => entry all (isTop all op) op) ∧
      (IndexBuilder.build all).objInfo = made all := by
  obtain ⟨runs, hkeyed, hruns⟩ := hg
  have hloop : ∀ (rest done : List ((ObjId A × Key A) × List (DocOp A))) (b : IndexBuilder A),
      runs = done ++ rest → Flushed all (Runs.elems done) [] b →
        Flushed all all [] (rest.foldl (Runs.onRun flush process) b) := by
    intro rest
    induction rest with
    | nil =>
      intro done b heq hb
      rw [List.append_nil] at heq
      rwa [← heq, hruns] at hb
    | cons run rest ih =>
      intro done b heq hb
      have helems : Runs.elems (done ++ [run]) = Runs.elems done ++ run.2 := by
        simp [Runs.elems]
      have hall : all = Runs.elems done ++ run.2 ++ Runs.elems rest := by
        rw [← hruns, heq]
        simp [Runs.elems]
      have hrun : run ∈ runs := heq ▸ List.mem_append_right done List.mem_cons_self
      exact ih (done ++ [run]) _ (by rw [heq]; simp) (helems ▸ Flushed.onRun h hb hall
        (fun op hop => hkeyed.key run hrun op hop) fun op hop => hkeyed.other heq hop)
  have hflushed : Flushed all all [] (IndexBuilder.build all) := by
    have hnew : Flushed all [] [] (IndexBuilder.flush (IndexBuilder.new : IndexBuilder A)) :=
      ⟨rfl, fun _ _ => rfl, rfl, rfl⟩
    have hscan : IndexBuilder.build (Runs.elems runs) =
        runs.foldl (Runs.onRun flush process) (flush IndexBuilder.new) :=
      Runs.scan_elems hkeyed (fun k hk => by cases hk) IndexBuilder.new
    rw [← hruns, hscan, hruns]
    exact hloop runs [] _ rfl hnew
  refine ⟨?_, by simpa using hflushed.objInfo⟩
  rw [hflushed.rows, List.append_nil]
  refine List.map_congr_left fun op hop => ?_
  rw [List.contains_iff_mem.mpr hop, Bool.true_and]

end

end AutomergeR
