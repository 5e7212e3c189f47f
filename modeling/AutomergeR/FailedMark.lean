import AutomergeR.InsertPosition
import AutomergeR.Marks

/-! # A mark that fails

A mark is made by two insertions, and the end is looked for when the begin is in place.
The begin takes no position away, so the second insertion finds an end that is not
beyond the text. A call that starts in the text and does not end beyond it makes its mark,
and one that does not start in the text leaves the transaction as it was (`mark_error`).
-/

namespace AutomergeR

variable {A : Type} [LinearOrder A]

namespace Tx

theorem queryInsertAt_isSome {objType : ObjType} {rows : List (Row A)} {index : ℕ}
    (h : index ≤ InsertQuery.reach objType rows none) :
    (queryInsertAt objType rows index).isSome = true := by
  unfold queryInsertAt
  dsimp only
  split
  · rfl
  · exact (InsertQuery.resolve_isSome objType rows index).mpr h

theorem doInsert_eq {tx : Tx A} {obj : ObjId A} {objType : ObjType} {index : ℕ}
    {action : OpType} {query : QueryNth A}
    (h : queryInsertAt objType (tx.ops.rows obj) index = some query) :
    tx.doInsert obj objType index action =
      (tx.splice query.pos
        { obj := obj, key := .seq query.elemid, insert := true, action := action, pred := [] },
        .ok tx.nextId) := by
  unfold doInsert
  rw [h]

theorem isSome_of_doInsert {tx tx' : Tx A} {obj : ObjId A} {objType : ObjType} {index : ℕ}
    {action : OpType} {id : OpId A}
    (h : tx.doInsert obj objType index action = (tx', .ok id)) :
    (queryInsertAt objType (tx.ops.rows obj) index).isSome = true := by
  unfold doInsert at h
  split at h
  · cases h
  · rename_i hq
    rw [hq]
    rfl

/-- The begin of a mark takes no position away. -/
theorem reach_doInsert_markBegin {tx tx' : Tx A} {obj : ObjId A} {start : ℕ} {expand : Bool}
    {name : String} {value : ScalarValue} {id : OpId A}
    (h : tx.doInsert obj .text start (.markBegin expand name value) = (tx', .ok id)) :
    InsertQuery.reach .text (tx.ops.rows obj) none ≤
      InsertQuery.reach .text (tx'.ops.rows obj) none := by
  cases hq : queryInsertAt .text (tx.ops.rows obj) start with
  | none =>
    unfold doInsert at h
    rw [hq] at h
    cases h
  | some query =>
    rw [doInsert_eq hq] at h
    cases h
    let m := row tx.nextId
      { obj := obj, key := .seq query.elemid, insert := true,
        action := .markBegin expand name value, pred := [] }
    have hcounts : InsertQuery.counts m = false := Bool.and_false _
    have hle := InsertQuery.reach_insert_le .text (m := m) rfl rfl hcounts
      ((tx.ops.rows obj).take query.pos) ((tx.ops.rows obj).drop query.pos) none
    rw [List.take_append_drop] at hle
    simpa [splice, m] using hle

end Tx

/-- The start of a mark has a place in a text. -/
def OpSet.markStarts (s : OpSet A) (obj : ObjId A) (start : ℕ) : Bool :=
  s.objectType obj = some .text && (Tx.queryInsertAt .text (s.rows obj) start).isSome

/-- The start has a place in the text, and the end lies beyond it. -/
def OpSet.markOvershoots (s : OpSet A) (obj : ObjId A) (start stop : ℕ) : Bool :=
  s.markStarts obj start && decide (Tx.InsertQuery.reach .text (s.rows obj) none < stop)

namespace Tx

/-- **A mark that fails** without overshooting does so at its start, and leaves nothing. -/
theorem mark_error {tx tx' : Tx A} {obj : ObjId A} {start stop : ℕ} {name : String}
    {value : ScalarValue} {expand : ExpandMark} {e : OpError}
    (h : tx.ops.markOvershoots obj start stop = false)
    (he : tx.mark obj start stop name value expand = (tx', .error e)) :
    tx' = tx ∧ tx.ops.markStarts obj start = false := by
  unfold mark objMeta at he
  unfold OpSet.markOvershoots at h
  cases ht : tx.ops.objectType obj with
  | none =>
    rw [ht] at he
    cases he
    exact ⟨rfl, by simp [OpSet.markStarts, ht]⟩
  | some objType =>
    rw [ht] at he
    cases objType with
    | map | table | list =>
      cases he
      exact ⟨rfl, by simp [OpSet.markStarts, ht]⟩
    | text =>
      have hstarts : tx.ops.markStarts obj start =
          (queryInsertAt .text (tx.ops.rows obj) start).isSome := by
        simp [OpSet.markStarts, ht]
      dsimp only at he
      split at he
      · cases he
      · cases hbegin : tx.doInsert obj .text start (.markBegin expand.before name value) with
        | mk tx₁ result =>
          rw [hbegin] at he
          cases result with
          | error e₁ =>
            cases he
            have hclean := clean_doInsert tx obj .text start (.markBegin expand.before name value)
            rw [hbegin] at hclean
            refine ⟨hclean _ rfl, ?_⟩
            rw [hstarts]
            cases hq : queryInsertAt .text (tx.ops.rows obj) start with
            | none => rfl
            | some query =>
              rw [doInsert_eq hq] at hbegin
              cases hbegin
          | ok id =>
            have hplace := isSome_of_doInsert hbegin
            have hle : stop ≤ InsertQuery.reach .text (tx.ops.rows obj) none := by
              simpa [hstarts, hplace] using h
            have hsome := queryInsertAt_isSome (hle.trans (reach_doInsert_markBegin hbegin))
            obtain ⟨query, hq⟩ := Option.isSome_iff_exists.mp hsome
            dsimp only at he
            rw [doInsert_eq hq] at he
            cases he

/-! ## The checks of the calls from R -/

/-- What `C_am_mark_create` and `AMmarkCreate` check before they call the library. -/
def markArgs (start stop name value expand : RValue) :
    Except RError (ℕ × ℕ × String × ScalarValue × ExpandMark) := do
  let i ← markPosition "start" start
  let j ← markPosition "end" stop
  if j ≤ i then .error (.stop "end must be greater than start")
  else
    match name with
    | .character _ [name] => do
      let expand ← expandOf expand
      let item ← markItem value
      match name.char, item with
      | none, _ => .error .invalidUtf8
      | some _, none => .error .abort
      | some name, some value => .ok (i, j, name, value, expand)
    | _ => .error (.stop "name must be a single character string")

/-- What `C_am_text_splice` and `AMspliceText` check of a text of this length. -/
def spliceArgs (length : ℕ) (pos delCount text : RValue) : Except RError (ℕ × ℕ × String) :=
  if !pos.isNumeric then .error (.stop "pos must be numeric")
  else if !delCount.isNumeric then .error (.stop "del_count must be numeric")
  else
    match text with
    | .character _ [text] =>
      if pos.asInteger < 0 then .error (.stop "pos must be non-negative")
      else if delCount.asInteger < 0 then .error (.stop "del_count must be non-negative")
      else if length < pos.asInteger.toNat then .error (.invalidPos "pos" pos.asInteger.toNat)
      else
        match text.char with
        | some text => .ok (pos.asInteger.toNat, delCount.asInteger.toNat, text)
        | none => .error .invalidUtf8
    | _ => .error (.stop "text must be a single character string")

theorem amMarkCreate_eq (tx : Tx A) (obj : ObjId A) (start stop name value expand : RValue) :
    tx.amMarkCreate obj start stop name value expand =
      match markArgs start stop name value expand with
      | .error e => (tx, .error e)
      | .ok (i, j, name, value, expand) => lift (tx.mark obj i j name value expand) := by
  unfold amMarkCreate markArgs
  cases markPosition "start" start with
  | error e => rfl
  | ok i =>
    cases markPosition "end" stop with
    | error e => rfl
    | ok j =>
      dsimp only [bind, Except.bind]
      split
      · rfl
      · cases name with
        | character cls names =>
          rcases names with _ | ⟨name, _ | ⟨_, _⟩⟩
          · rfl
          · cases expandOf expand with
            | error e => rfl
            | ok expand =>
              cases markItem value with
              | error e => rfl
              | ok item =>
                unfold markCreate
                dsimp only
                cases name.char <;> cases item <;> rfl
          · rfl
        | _ => rfl

theorem amTextSplice_eq (tx : Tx A) (obj : ObjId A) (pos delCount text : RValue) :
    tx.amTextSplice obj pos delCount text =
      match spliceArgs (tx.ops.length obj) pos delCount text with
      | .error e => (tx, .error e)
      | .ok (pos, del, text) => lift (tx.spliceText obj pos del text) := by
  unfold amTextSplice spliceArgs amSpliceText
  split
  · rfl
  · split
    · rfl
    · cases text with
      | character cls texts =>
        rcases texts with _ | ⟨text, _ | ⟨_, _⟩⟩
        · rfl
        · dsimp only
          split
          · rfl
          · split
            · rfl
            · split
              · rfl
              · cases text.char <;> rfl
        · rfl
      | _ => rfl

end Tx

end AutomergeR
