import AutomergeR.SeqRows

/-! # Where local operations on a sequence go

`local_list_op` puts its row at the end of the register it has found, and `do_insert` where
the scan of an `InsertQuery` leads. Both are ends of registers, and the key of the operation
names the element whose register it is (`ends_seekOps`, `ends_queryInsertAt`).
-/

namespace AutomergeR

variable {A : Type} [LinearOrder A] {rows : List (Row A)}

/-- The register of `e` ends at `pos`; for the head this is the beginning. -/
structure EndsAt (rows : List (Row A)) (pos : ℕ) (e : ElemId A) : Prop where
  next : ∀ r ∈ (rows.drop pos).head?, r.insert = true
  last : behind (rows.take pos) = e

/-- A mark has no operations. -/
def LoneMarks (rows : List (Row A)) : Prop :=
  ∀ (pos : ℕ) (r x : Row A), rows[pos]? = some r → rows[pos + 1]? = some x →
    r.action.isMark = true → x.insert = true

omit [LinearOrder A] in
theorem behind_take {pos : ℕ} {r : Row A} (hr : rows[pos]? = some r) :
    behind (rows.take (pos + 1)) = r.cursor := by
  unfold behind
  rw [List.take_add_one, hr]
  simp

theorem ends_zero (h : SeqRows rows) : EndsAt rows 0 none where
  next r hr := by
    have hbefore := h.before
    rw [elements_fst] at hbefore
    rw [List.drop_zero] at hr
    cases rows with
    | nil => cases hr
    | cons x rows =>
      cases hr
      cases hins : r.insert with
      | true => rfl
      | false => simp [hins] at hbefore
  last := rfl

/-- The rows up to the next insertion belong to the same element. -/
theorem SeqRows.cursor_tail {pre tail post : List (Row A)} {r : Row A}
    (h : SeqRows (pre ++ r :: tail ++ post)) (hpost : ∀ x ∈ post.head?, x.insert = true)
    (htail : ∀ x ∈ tail, x.insert = false) : ∀ x ∈ tail, x.cursor = r.cursor := by
  obtain ⟨els, els', hels, -, hregs, -⟩ := h.split hpost
  rcases List.eq_nil_or_concat els with rfl | ⟨els, ⟨q, rest⟩, rfl⟩
  · simp [flat] at hels
  rw [List.concat_eq_append] at hels hregs
  rw [flat_snoc] at hels
  have hcursor := (hregs (q, rest) (by simp)).cursor
  have hsame : ∀ x ∈ r :: tail, x ∈ q :: rest := by
    rcases List.append_eq_append_iff.mp hels with ⟨c, -, hc⟩ | ⟨c, -, hc⟩
    · intro x hx
      rw [hc] at hx
      cases c with
      | nil => exact hx
      | cons y c =>
        -- else the insertion is among the rows behind `r`
        obtain ⟨-, htl⟩ := List.cons.inj hc
        have hq := htail q (by rw [htl]; simp)
        have hins := (hregs (q, rest) (by simp)).insert
        rw [show q.insert = true from hins] at hq
        cases hq
    · intro x hx
      rw [hc]
      exact List.mem_append_right c hx
  intro x hx
  rw [hcursor x (hsame x (List.mem_cons_of_mem r hx)), hcursor r (hsame r List.mem_cons_self)]

omit [LinearOrder A] in
theorem head_dropWhile (rows : List (Row A)) :
    ∀ x ∈ (rows.dropWhile fun x => !x.insert).head?, x.insert = true := by
  intro x hx
  have hhead := List.head?_dropWhile_not (fun x : Row A => !x.insert) rows
  rw [Option.mem_def.mp hx] at hhead
  simpa using hhead

omit [LinearOrder A] in
theorem takeWhile_insert {x : Row A} (hx : x ∈ rows.takeWhile fun x => !x.insert) :
    x.insert = false := by
  simpa using List.mem_takeWhile_imp hx

omit [LinearOrder A] in
/-- The rows cut at a row and at the next insertion behind it. -/
theorem rows_cut {pos : ℕ} {r : Row A} (hr : rows[pos]? = some r) : rows =
    rows.take pos ++ r :: ((rows.drop (pos + 1)).takeWhile fun x => !x.insert) ++
      (rows.drop (pos + 1)).dropWhile fun x => !x.insert := by
  rw [List.append_assoc, List.cons_append, List.takeWhile_append_dropWhile]
  have hdrop : rows.drop pos = r :: rows.drop (pos + 1) := by
    rw [List.drop_eq_getElem?_toList_append, hr]
    rfl
  rw [← hdrop, List.take_append_drop]

theorem SeqRows.cursor_rest (h : SeqRows rows) {pos : ℕ} {r : Row A} (hr : rows[pos]? = some r) :
    ∀ x ∈ (rows.drop (pos + 1)).takeWhile fun x => !x.insert, x.cursor = r.cursor := by
  rw [rows_cut hr] at h
  exact h.cursor_tail (head_dropWhile _) fun x hx => takeWhile_insert hx

/-- The row belongs to the element of the row before it. -/
theorem SeqRows.cursor_succ (h : SeqRows rows) {pos : ℕ} {r x : Row A} (hr : rows[pos]? = some r)
    (hx : rows[pos + 1]? = some x) (hins : x.insert = false) : x.cursor = r.cursor := by
  refine h.cursor_rest hr x ?_
  rw [List.drop_eq_getElem?_toList_append, hx]
  simp [hins]

/-- The end of the register that a row is in. -/
theorem ends_register (h : SeqRows rows) {pos : ℕ} {r : Row A} (hr : rows[pos]? = some r) :
    EndsAt rows (OpSet.registerEnd rows pos) r.cursor := by
  have htail := h.cursor_rest hr
  have hcut := rows_cut hr
  have hlen : pos < rows.length := (List.getElem?_eq_some_iff.mp hr).1
  generalize hrest : (rows.drop (pos + 1)).takeWhile (fun x => !x.insert) = rest at htail hcut
  have hend : OpSet.registerEnd rows pos = (rows.take pos ++ r :: rest).length := by
    unfold OpSet.registerEnd
    rw [hrest, List.length_append, List.length_take, List.length_cons, min_eq_left hlen.le]
    omega
  have hnext := head_dropWhile (rows.drop (pos + 1))
  generalize (rows.drop (pos + 1)).dropWhile (fun x => !x.insert) = post at hcut hnext
  generalize rows.take pos = pre at hcut hend
  rw [hend, hcut]
  refine ⟨?_, ?_⟩
  · rw [List.drop_left]
    exact hnext
  · rw [List.take_left]
    unfold behind
    rw [List.getLast?_append_of_ne_nil _ (List.cons_ne_nil r rest),
      List.getLast?_eq_some_getLast (List.cons_ne_nil r rest), Option.bind_some]
    rcases List.mem_cons.mp (List.getLast_mem (List.cons_ne_nil r rest)) with heq | hmem
    · rw [heq]
    · exact htail _ hmem

/-- The rows of a register belong to one element. -/
theorem cursor_register (h : SeqRows rows) {pos : ℕ} {r : Row A} (hr : rows[pos]? = some r) :
    ∀ x ∈ OpSet.register rows pos, x.cursor = r.cursor := by
  have hlen : pos < rows.length := (List.getElem?_eq_some_iff.mp hr).1
  obtain ⟨pre, elem, post, k, hel, hrows, hk, hlt⟩ :=
    OpSet.exists_element (rows.take pos) r (rows.drop (pos + 1))
  have hsplit : rows = pre ++ elem ++ post := by
    rw [← hrows]
    have hdrop : rows.drop pos = r :: rows.drop (pos + 1) := by
      rw [List.drop_eq_getElem?_toList_append, hr]
      rfl
    rw [← hdrop, List.take_append_drop]
  rw [List.length_take, min_eq_left hlen.le] at hk
  have hreg : OpSet.register rows pos = elem := by
    rw [hsplit, hk]
    exact hel.register hlt
  have hmem : r ∈ elem := by
    rw [hsplit, hk, List.append_assoc, List.getElem?_append_right (by omega),
      List.getElem?_append_left (by omega)] at hr
    exact List.mem_of_getElem? hr
  rw [hreg]
  cases elem with
  | nil => cases hmem
  | cons q tail =>
    rw [hsplit] at h
    have hcursor := h.cursor_tail hel.next hel.tail
    have hall : ∀ x ∈ q :: tail, x.cursor = q.cursor := fun x hx => by
      rcases List.mem_cons.mp hx with rfl | hx
      · rfl
      · exact hcursor x hx
    exact fun x hx => (hall x hx).trans (hall r hmem).symm

/-! ## Operations on an element -/

/-- What `seek_list_ops_by_index` finds is of one element, and its register ends where the
new row goes. -/
theorem ends_seekListOps (h : SeqRows rows) {index : ℕ} {x : Row A}
    (hx : x ∈ (OpSet.seekListOpsByIndex rows index).ops) :
    EndsAt rows (OpSet.seekListOpsByIndex rows index).endPos x.cursor := by
  unfold OpSet.seekListOpsByIndex at hx ⊢
  split at hx
  · rename_i pos hpos
    obtain ⟨before, r, after, rfl, hlen, -, -⟩ := OpSet.nthPos_eq_some hpos
    have hr : (before ++ r :: after)[pos]? = some r := by
      rw [← hlen]
      simp
    rw [cursor_register h hr x (List.mem_filter.mp hx).1]
    exact ends_register h hr
  · cases hx

omit [LinearOrder A] in
/-- Once an operation is found, the rest of its register is looked at. -/
theorem textOps_found : ∀ (rows : List (Row A)) (pos : ℕ) {ops : List (Row A)}, ops ≠ [] →
    OpSet.textOps rows pos ops =
      (ops ++ (rows.takeWhile fun x => !x.insert).filter fun x => x.succ.isEmpty && !x.action.isMark,
        pos + (rows.takeWhile fun x => !x.insert).length)
  | [], _, ops, _ => by
    rw [List.takeWhile_nil, List.filter_nil, List.append_nil]
    rfl
  | r :: rows, pos, ops, hne => by
    have hempty : ops.isEmpty = false := by
      cases ops with
      | nil => exact absurd rfl hne
      | cons => rfl
    unfold OpSet.textOps
    cases hins : r.insert with
    | true => simp [hins, hempty]
    | false =>
      have hne' : (if r.succ.isEmpty && !r.action.isMark then ops ++ [r] else ops) ≠ [] := by
        split
        · simp
        · exact hne
      rw [Bool.false_and, if_neg Bool.false_ne_true, textOps_found rows (pos + 1) hne',
        List.takeWhile_cons_of_pos (by rw [hins]; rfl), List.filter_cons, List.length_cons,
        Nat.add_right_comm, Nat.add_assoc]
      split <;> simp

omit [LinearOrder A] in
theorem textPos_eq_some : ∀ {rows : List (Row A)} {index pos acc : ℕ},
    OpSet.textPos index rows = some (pos, acc) → ∃ r, rows[pos]? = some r ∧ 0 < r.text.getD 0
  | r :: rows, index, pos, acc, h => by
    unfold OpSet.textPos at h
    dsimp only at h
    split at h
    · rename_i hlt
      cases h
      exact ⟨r, rfl, by omega⟩
    · obtain ⟨⟨pos', acc'⟩, hrest, heq⟩ := Option.map_eq_some_iff.mp h
      cases heq
      obtain ⟨x, hx, hpos⟩ := textPos_eq_some hrest
      exact ⟨x, hx, hpos⟩

/-- A row has a width only if its operation is in force. -/
def TextIndexed (rows : List (Row A)) : Prop :=
  ∀ r ∈ rows, 0 < r.text.getD 0 → r.succ.isEmpty = true ∧ r.action.isMark = false

/-- What `seek_text_ops_by_index` finds is of one element, and its register ends where the
new row goes. -/
theorem ends_seekTextOps (h : SeqRows rows) (ht : TextIndexed rows) {index : ℕ} {x : Row A}
    (hx : x ∈ (OpSet.seekTextOpsByIndex rows index).ops) :
    EndsAt rows (OpSet.seekTextOpsByIndex rows index).endPos x.cursor := by
  unfold OpSet.seekTextOpsByIndex at hx ⊢
  split at hx
  · rename_i pos acc hpos
    obtain ⟨r, hr, hwidth⟩ := textPos_eq_some hpos
    obtain ⟨hsucc, hmark⟩ := ht r (List.mem_of_getElem? hr) hwidth
    have hdrop : rows.drop pos = r :: rows.drop (pos + 1) := by
      rw [List.drop_eq_getElem?_toList_append, hr]
      rfl
    -- the row that is found is the first of the operations
    have hscan : OpSet.textOps (rows.drop pos) pos [] =
        OpSet.textOps (rows.drop (pos + 1)) (pos + 1) [r] := by
      rw [hdrop, OpSet.textOps]
      simp [hsucc, hmark]
    rw [textOps_found _ _ (List.cons_ne_nil r [])] at hscan
    have hends := ends_register h hr
    unfold OpSet.registerEnd at hends
    simp only [hscan] at hx ⊢
    have hcursor : x.cursor = r.cursor := by
      rcases List.mem_append.mp hx with hx | hx
      · rw [List.mem_singleton.mp hx]
      · exact h.cursor_rest hr x (List.mem_filter.mp hx).1
    rw [hcursor]
    exact hends
  · cases hx

theorem ends_seekOps (h : SeqRows rows) {t : ObjType} (ht : t = .text → TextIndexed rows)
    {index : ℕ} {x : Row A} (hx : x ∈ (OpSet.seekOpsByIndex t rows index).ops) :
    EndsAt rows (OpSet.seekOpsByIndex t rows index).endPos x.cursor := by
  unfold OpSet.seekOpsByIndex at hx ⊢
  split at hx
  · rename_i htext
    rw [if_pos htext]
    exact ends_seekTextOps h (ht htext) hx
  · rename_i htext
    rw [if_neg htext]
    exact ends_seekListOps h hx

/-- Operations on one key or element, in the order of their ids. -/
structure FoundOn (key : Key A) (ops : List (Row A)) : Prop where
  sorted : ops.Pairwise fun r r' => r.id < r'.id
  key : ∀ r ∈ ops, r.elemidOrKey = key

theorem FoundOn.sublist {key : Key A} {ops ops' : List (Row A)} (h : FoundOn key ops)
    (hsub : ops'.Sublist ops) : FoundOn key ops' :=
  ⟨h.sorted.sublist hsub, fun r hr => h.key r (hsub.subset hr)⟩

/-- Rows of one element, of a sequence. -/
theorem SeqRows.foundOn (h : SeqRows rows) (hids : (rows.map Row.id).Nodup)
    (hkeys : ∀ r ∈ rows, ∃ e, r.key = .seq e) {ops : List (Row A)} (hsub : ops.Sublist rows)
    {e : ElemId A} (hcursor : ∀ r ∈ ops, r.cursor = e) : FoundOn (.seq e) ops where
  sorted := ((h.sorted_cursor hids).sublist hsub).imp_of_mem fun {r r'} hr hr' hlt =>
    hlt ((hcursor r hr).trans (hcursor r' hr').symm)
  key r hr := by
    obtain ⟨e', hkey⟩ := hkeys r (hsub.subset hr)
    rw [← hcursor r hr]
    unfold Row.elemidOrKey Row.cursor
    rw [hkey]
    cases r.insert <;> rfl

/-- All that is found at an index is of one element. -/
theorem cursor_seekOps (h : SeqRows rows) {t : ObjType} (ht : t = .text → TextIndexed rows)
    {index : ℕ} {x y : Row A} (hx : x ∈ (OpSet.seekOpsByIndex t rows index).ops)
    (hy : y ∈ (OpSet.seekOpsByIndex t rows index).ops) : x.cursor = y.cursor :=
  (ends_seekOps h ht hx).last.symm.trans (ends_seekOps h ht hy).last

/-! ## Insertions -/

namespace Tx.InsertQuery

/-- What a scan keeps at the row `pos`: the candidates are ends of registers, and once an
element counts it is the one the rows before `pos` end in. -/
structure Scans (rows : List (Row A)) (q : InsertQuery A) (pos : ℕ) : Prop where
  candidates : ∀ loc ∈ q.candidates, EndsAt rows loc.pos loc.cursor
  settled : q.done = true → ∃ loc ∈ q.candidates.getLast?, loc.id = none
  waiting : q.done = false → q.candidates = []
  counted : q.lastWidth.isSome = true → q.done = false ∧
    q.lastVisibleCursor = some (behind (rows.take pos)) ∧ q.pos + 1 = pos

/-- The candidates, with the first one found at an insertion. -/
def opened (q : InsertQuery A) (r : Row A) (pos : ℕ) : List (Loc A) :=
  match r.insert && q.candidates.isEmpty, q.lastVisibleCursor with
  | true, some cursor => [⟨cursor, pos, none⟩]
  | _, _ => q.candidates

/-- The candidates behind a mark. -/
def passMark (candidates : List (Loc A)) (r : Row A) (pos : ℕ) : List (Loc A) :=
  if candidates.isEmpty then candidates
  else
    match r.action with
    | .markEnd expand =>
      match closeMark candidates r.id with
      | some candidates => candidates
      | none => if expand then candidates else ⟨r.cursor, pos + 1, some r.id⟩ :: candidates
    | .markBegin true _ _ => ⟨r.cursor, pos + 1, some r.id⟩ :: candidates
    | _ => candidates

theorem identify_candidates (q : InsertQuery A) (r : Row A) (pos : ℕ) :
    q.identify r pos = { q with candidates := passMark (q.opened r pos) r pos } := by
  have hbase : ∃ base, q.opened r pos = base ∧ q.identify r pos =
      if base.isEmpty then { q with candidates := base }
      else
        match r.action with
        | .markEnd expand =>
          match closeMark base r.id with
          | some candidates => { q with candidates := candidates }
          | none => { q with candidates := if expand then base else ⟨r.cursor, pos + 1, some r.id⟩ :: base }
        | .markBegin true _ _ => { q with candidates := ⟨r.cursor, pos + 1, some r.id⟩ :: base }
        | _ => { q with candidates := base } := ⟨_, rfl, rfl⟩
  obtain ⟨base, hopened, hid⟩ := hbase
  rw [hid, hopened]
  unfold passMark
  split
  · rfl
  · split
    · cases closeMark base r.id <;> rfl
    · rfl
    · rfl

omit [LinearOrder A] in
theorem mem_opened {q : InsertQuery A} {r : Row A} {pos : ℕ} {loc : Loc A}
    (h : loc ∈ q.opened r pos) : loc ∈ q.candidates ∨ r.insert = true ∧ q.candidates = [] ∧
      ∃ cursor, q.lastVisibleCursor = some cursor ∧ loc = ⟨cursor, pos, none⟩ := by
  unfold opened at h
  split at h
  · rename_i cursor hb hcur
    obtain ⟨hins, hnil⟩ := Bool.and_eq_true_iff.mp hb
    exact Or.inr ⟨hins, List.isEmpty_iff.mp hnil, cursor, hcur, List.mem_singleton.mp h⟩
  · exact Or.inl h

theorem mem_passMark {candidates : List (Loc A)} {r : Row A} {pos : ℕ} {loc : Loc A}
    (h : loc ∈ passMark candidates r pos) : loc ∈ candidates ∨
      r.action.isMark = true ∧ loc = ⟨r.cursor, pos + 1, some r.id⟩ := by
  unfold passMark at h
  split at h
  · exact Or.inl h
  · split at h
    · rename_i hact
      split at h
      · rename_i hclose
        unfold closeMark at hclose
        split at hclose
        · cases hclose
          exact Or.inl (List.mem_of_mem_drop h)
        · cases hclose
      · split at h
        · exact Or.inl h
        · rcases List.mem_cons.mp h with h | h
          · exact Or.inr ⟨by rw [hact]; rfl, h⟩
          · exact Or.inl h
    · rename_i hact
      rcases List.mem_cons.mp h with h | h
      · exact Or.inr ⟨by rw [hact]; rfl, h⟩
      · exact Or.inl h
    · exact Or.inl h

/-- The oldest candidate, which is not that of a mark, stays. -/
theorem passMark_getLast? {candidates : List (Loc A)} {loc : Loc A}
    (hl : loc ∈ candidates.getLast?) (hid : loc.id = none) (r : Row A) (pos : ℕ) :
    loc ∈ (passMark candidates r pos).getLast? := by
  have hpush : ∀ l : Loc A, loc ∈ (l :: candidates).getLast? := by
    intro l
    cases candidates with
    | nil => cases hl
    | cons c cs => rwa [List.getLast?_cons_cons]
  unfold passMark
  split
  · exact hl
  · split
    · split
      · rename_i hclose
        exact closeMark_getLast? hclose hl hid
      · split
        · exact hl
        · exact hpush _
    · exact hpush _
    · exact hl

/-- A row at which the place is known: the candidates stay ends of registers. -/
theorem Scans.identify {q : InsertQuery A} {pos : ℕ} {r : Row A} (hm : LoneMarks rows) (hr : rows[pos]? = some r)
    (hcand : ∀ loc ∈ q.candidates, EndsAt rows loc.pos loc.cursor)
    (hopen : (∃ loc ∈ q.candidates.getLast?, loc.id = none) ∨ r.insert = true ∧
      q.candidates = [] ∧ q.lastVisibleCursor = some (behind (rows.take pos))) :
    (∀ loc ∈ (q.identify r pos).candidates, EndsAt rows loc.pos loc.cursor) ∧
      ∃ loc ∈ (q.identify r pos).candidates.getLast?, loc.id = none := by
  rw [identify_candidates]
  constructor
  · intro loc hloc
    rcases mem_passMark hloc with hloc | ⟨hmark, rfl⟩
    · rcases mem_opened hloc with hloc | ⟨hins, hnil, cursor, hcur, rfl⟩
      · exact hcand loc hloc
      · refine ⟨fun x hx => ?_, ?_⟩
        · rw [List.head?_drop, hr] at hx
          cases hx
          exact hins
        · rcases hopen with ⟨loc, hloc, -⟩ | ⟨-, -, hlast⟩
          · rw [hnil] at hloc
            cases hloc
          · rw [hlast] at hcur
            cases hcur
            rfl
    · refine ⟨fun x hx => ?_, behind_take hr⟩
      rw [List.head?_drop] at hx
      exact hm pos r x hr hx hmark
  · rcases hopen with ⟨loc, hloc, hid⟩ | ⟨hins, hnil, hlast⟩
    · have hne : q.candidates.isEmpty = false := by
        cases hc : q.candidates with
        | nil =>
          rw [hc] at hloc
          cases hloc
        | cons => rfl
      have hopened : q.opened r pos = q.candidates := by
        unfold opened
        rw [hne, Bool.and_false]
      rw [hopened]
      exact ⟨loc, passMark_getLast? hloc hid r pos, hid⟩
    · have hopened : q.opened r pos = [⟨behind (rows.take pos), pos, none⟩] := by
        unfold opened
        rw [hins, hnil, hlast]
        rfl
      rw [hopened]
      have hl : (⟨behind (rows.take pos), pos, none⟩ : Loc A) ∈
          [(⟨behind (rows.take pos), pos, none⟩ : Loc A)].getLast? := rfl
      exact ⟨_, passMark_getLast? hl rfl r pos, rfl⟩

/-- An insertion closes the element before it, and then its end is a candidate or the scan
waits on. -/
theorem Scans.step (h : SeqRows rows) (hm : LoneMarks rows) (t : ObjType) (target : ℕ)
    {q : InsertQuery A} {pos : ℕ} {r : Row A} (hq : Scans rows q pos) (hr : rows[pos]? = some r)
    (hinc : r.isInc = false) :
    ((q.step t target r pos).2 = false → Scans rows (q.step t target r pos).1 (pos + 1)) ∧
      ((q.step t target r pos).2 = true →
        (∀ loc ∈ (q.step t target r pos).1.candidates, EndsAt rows loc.pos loc.cursor) ∧
          (q.step t target r pos).1.candidates ≠ []) := by
  -- the element before the row is closed
  obtain ⟨hcand, hopen, hwait, hcount, hwidth⟩ :
      (∀ loc ∈ (q.close target r).candidates, EndsAt rows loc.pos loc.cursor) ∧
      ((q.close target r).done = true →
        (∃ loc ∈ (q.close target r).candidates.getLast?, loc.id = none) ∨ r.insert = true ∧
          (q.close target r).candidates = [] ∧
            (q.close target r).lastVisibleCursor = some (behind (rows.take pos))) ∧
      ((q.close target r).done = false → (q.close target r).candidates = []) ∧
      ((q.close target r).lastWidth.isSome = true → (q.close target r).done = false ∧
        (q.close target r).lastVisibleCursor = some (behind (rows.take pos))) ∧
      ((q.close target r).lastWidth.isSome = true → r.insert = false) := by
    unfold close
    split
    · rename_i w hins hw
      obtain ⟨hdone, hlast, -⟩ := hq.counted (by rw [hw]; rfl)
      have hnil := hq.waiting hdone
      exact ⟨hq.candidates, fun _ => Or.inr ⟨hins, hnil, hlast⟩, fun _ => hnil,
        fun hn => (by cases hn), fun hn => (by cases hn)⟩
    · rename_i hno
      refine ⟨hq.candidates, fun hd => Or.inl (hq.settled hd), hq.waiting, fun hs => ?_, fun hs => ?_⟩
      · exact ⟨(hq.counted hs).1, (hq.counted hs).2.1⟩
      · obtain ⟨w, hw⟩ := Option.isSome_iff_exists.mp hs
        cases hins : r.insert with
        | false => rfl
        | true => exact absurd hw (hno w hins)
  rw [step_eq, hinc, if_neg Bool.false_ne_true]
  split
  · rename_i hdone
    obtain ⟨hcand', hset⟩ := Scans.identify hm hr hcand (hopen hdone)
    have hdone' : ((q.close target r).identify r pos).done = true := by rwa [identify_done]
    have hnone : ((q.close target r).identify r pos).lastWidth.isSome = false := by
      rw [identify_lastWidth, Bool.eq_false_iff]
      intro hs
      rw [(hcount hs).1] at hdone
      cases hdone
    split
    · refine ⟨fun hn => (by cases hn), fun _ => ⟨hcand', fun hnil => ?_⟩⟩
      rw [hnil] at hset
      obtain ⟨loc, hloc, -⟩ := hset
      cases hloc
    · refine ⟨fun _ => ⟨hcand', fun _ => hset, fun hd => ?_, fun hs => ?_⟩, fun hn => (by cases hn)⟩
      · have hd : ((q.close target r).identify r pos).done = false := hd
        rw [hdone'] at hd
        cases hd
      · have hs : ((q.close target r).identify r pos).lastWidth.isSome = true := hs
        rw [hnone] at hs
        cases hs
  · rename_i hdone
    have hdone := Bool.eq_false_iff.mpr hdone
    have hnil := hwait hdone
    split
    · refine ⟨fun _ => ⟨hcand, fun hd => ?_, fun _ => hnil, fun _ => ⟨hdone, ?_, rfl⟩⟩,
        fun hn => (by cases hn)⟩
      · have hd : (q.close target r).done = true := hd
        rw [hdone] at hd
        cases hd
      · rw [behind_take hr]
    · refine ⟨fun _ => ⟨hcand, fun hd => ?_, fun _ => hnil, fun hs => ⟨hdone, ?_, rfl⟩⟩,
        fun hn => (by cases hn)⟩
      · have hd : (q.close target r).done = true := hd
        rw [hdone] at hd
        cases hd
      · -- the row is of the element that counts
        show (q.close target r).lastVisibleCursor = _
        rw [(hcount hs).2, behind_take hr]
        cases pos with
        | zero =>
          have hins := (ends_zero h).next r (by rw [List.head?_drop, hr]; rfl)
          rw [hwidth hs] at hins
          cases hins
        | succ pos =>
          have hlt := (List.getElem?_eq_some_iff.mp hr).1
          have hprev : rows[pos]? = some rows[pos] := List.getElem?_eq_getElem (by omega)
          rw [behind_take hprev, h.cursor_succ hprev hr (hwidth hs)]

omit [LinearOrder A] in
/-- The latest candidate, or where the scan has come to. -/
theorem finish_place {q : InsertQuery A} {target : ℕ} {query : QueryNth A}
    (h : q.finish target = some query) :
    (∃ loc ∈ q.candidates, query.pos = loc.pos ∧ query.elemid = loc.cursor) ∨
      q.candidates = [] ∧ q.lastVisibleCursor = some query.elemid ∧ query.pos = q.pos + 1 ∧
        (q.lastWidth.isSome = true ∨ q.done = true) := by
  unfold finish at h
  dsimp only at h
  by_cases hd : (!if q.lastWidth.isSome then decide (target ≤ q.index + q.lastWidth.getD 0)
      else q.done) = true
  · rw [if_pos hd] at h
    cases h
  · rw [if_neg hd] at h
    cases hc : q.candidates with
    | cons loc rest =>
      rw [hc] at h
      cases h
      exact Or.inl ⟨loc, List.mem_cons_self, rfl, rfl⟩
    | nil =>
      rw [hc] at h
      cases hcur : q.lastVisibleCursor with
      | none =>
        rw [hcur] at h
        cases h
      | some cursor =>
        rw [hcur] at h
        cases h
        refine Or.inr ⟨rfl, rfl, rfl, ?_⟩
        cases hw : q.lastWidth with
        | some w => exact Or.inl rfl
        | none =>
          rw [hw] at hd
          exact Or.inr (by simpa using hd)

theorem loop_ends (h : SeqRows rows) (hm : LoneMarks rows) (hinc : ∀ r ∈ rows, r.isInc = false)
    (t : ObjType) {target : ℕ} (l : List (Row A)) : ∀ {q : InsertQuery A} {pos : ℕ}
      {query : QueryNth A}, pos + l.length = rows.length → rows.drop pos = l → Scans rows q pos →
      (q.loop t target l pos).finish target = some query → EndsAt rows query.pos query.elemid := by
  induction l with
  | nil =>
    intro q pos query hlen _ hq hfin
    have hlen : pos = rows.length := hlen
    have hfin : q.finish target = some query := hfin
    rcases finish_place hfin with ⟨loc, hloc, hpos, helem⟩ | ⟨hnil, hcur, hpos, hwidth | hdone⟩
    · rw [hpos, helem]
      exact hq.candidates loc hloc
    · -- the last element is the one that counts
      obtain ⟨-, hlast, hnext⟩ := hq.counted hwidth
      rw [hpos, hnext, hlen]
      rw [hlen, hcur] at hlast
      refine ⟨fun r hr => ?_, (Option.some.inj hlast).symm⟩
      rw [List.drop_length] at hr
      cases hr
    · obtain ⟨loc, hloc, -⟩ := hq.settled hdone
      rw [hnil] at hloc
      cases hloc
  | cons r l ih =>
    intro q pos query hlen hl hq hfin
    have hr : rows[pos]? = some r := by
      have hhead := congrArg List.head? hl
      rwa [List.head?_drop, List.head?_cons] at hhead
    obtain ⟨hgo, hstop⟩ := hq.step h hm t target hr (hinc r (List.mem_of_getElem? hr))
    unfold loop at hfin
    cases hstep : q.step t target r pos with
    | mk q' stop =>
      rw [hstep] at hfin hgo hstop
      cases stop with
      | false =>
        rw [List.length_cons] at hlen
        refine ih (by omega) ?_ (hgo rfl) hfin
        rw [← List.tail_drop, hl, List.tail_cons]
      | true =>
        obtain ⟨hcand, hne⟩ := hstop rfl
        rcases finish_place hfin with ⟨loc, hloc, hpos, helem⟩ | ⟨hnil, -⟩
        · rw [hpos, helem]
          exact hcand loc hloc
        · exact absurd hnil hne

theorem resolve_ends (h : SeqRows rows) (hm : LoneMarks rows) (hinc : ∀ r ∈ rows, r.isInc = false)
    {t : ObjType} {start target index : ℕ} (hle : start ≤ rows.length)
    (hindex : target ≤ index → target = 0) (hstart : target = 0 → start = 0) {query : QueryNth A}
    (hq : resolve t rows start target index = some query) : EndsAt rows query.pos query.elemid := by
  unfold resolve at hq
  have hlen : start + (rows.drop start).length = rows.length := by
    rw [List.length_drop]
    omega
  refine loop_ends h hm hinc t _ hlen rfl ⟨fun loc hloc => ?_, fun hd => ?_, fun hd => ?_,
    fun hs => (by cases hs)⟩ hq
  · dsimp only at hloc
    split at hloc
    · rename_i h0
      rw [List.mem_singleton.mp hloc, hstart h0]
      exact ends_zero h
    · cases hloc
  · have h0 := hindex (of_decide_eq_true hd)
    simp only [h0]
    exact ⟨⟨none, start, none⟩, rfl, rfl⟩
  · have h0 := of_decide_eq_false hd
    dsimp only
    rw [if_neg (by omega)]

end InsertQuery

omit [LinearOrder A] in
theorem textPos_le : ∀ {rows : List (Row A)} {index pos acc : ℕ},
    OpSet.textPos index rows = some (pos, acc) → pos ≤ rows.length ∧ acc ≤ index
  | r :: rows, index, pos, acc, h => by
    unfold OpSet.textPos at h
    dsimp only at h
    split at h
    · cases h
      exact ⟨Nat.zero_le _, Nat.zero_le _⟩
    · obtain ⟨⟨pos', acc'⟩, hrest, heq⟩ := Option.map_eq_some_iff.mp h
      cases heq
      obtain ⟨hpos, hacc⟩ := textPos_le hrest
      rw [List.length_cons]
      omega

/-- **Where an insertion goes** the register of the element it names ends. -/
theorem ends_queryInsertAt (h : SeqRows rows) (hm : LoneMarks rows)
    (hinc : ∀ r ∈ rows, r.isInc = false) {t : ObjType} {index : ℕ} {query : QueryNth A}
    (hq : queryInsertAt t rows index = some query) : EndsAt rows query.pos query.elemid := by
  have hslow : InsertQuery.resolve t rows 0 index 0 = some query → EndsAt rows query.pos query.elemid :=
    InsertQuery.resolve_ends h hm hinc (Nat.zero_le _) (fun hle => Nat.le_zero.mp hle) fun _ => rfl
  unfold queryInsertAt at hq
  dsimp only at hq
  split at hq
  · rename_i query' hfast
    cases hq
    split at hfast
    · cases hfast
    · rename_i h0
      split at hfast
      · split at hfast
        · rename_i pos acc hpos
          obtain ⟨hle, hacc⟩ := textPos_le hpos
          exact InsertQuery.resolve_ends h hm hinc hle (by omega) (by omega) hfast
        · cases hfast
      · refine InsertQuery.resolve_ends h hm hinc ?_ (by omega) (by omega) hfast
        cases hpos : OpSet.nthPos (·.top) (index - 1) rows with
        | none => exact le_rfl
        | some pos =>
          obtain ⟨before, r, after, rfl, hlen, -, -⟩ := OpSet.nthPos_eq_some hpos
          simp only [Option.getD_some, List.length_append]
          omega
  · exact hslow hq

/-! ## What an insertion names -/

namespace InsertQuery

/-- A candidate is at the head or at an element of the rows, as is the element last seen. -/
structure Names (rows : List (Row A)) (q : InsertQuery A) : Prop where
  candidates : ∀ loc ∈ q.candidates, loc.cursor = none ∨ ∃ r ∈ rows, r.cursor = loc.cursor
  last : ∀ cursor ∈ q.lastVisibleCursor, ∃ r ∈ rows, r.cursor = cursor

theorem Names.identify {q : InsertQuery A} (hq : Names rows q) {r : Row A} (hr : r ∈ rows)
    (pos : ℕ) : Names rows (q.identify r pos) := by
  rw [identify_candidates]
  refine ⟨fun loc hloc => ?_, hq.last⟩
  rcases mem_passMark hloc with hloc | ⟨-, rfl⟩
  · rcases mem_opened hloc with hloc | ⟨-, -, cursor, hcur, rfl⟩
    · exact hq.candidates loc hloc
    · exact Or.inr (hq.last cursor hcur)
  · exact Or.inr ⟨r, hr, rfl⟩

theorem Names.step {q : InsertQuery A} (hq : Names rows q) {r : Row A} (hr : r ∈ rows)
    (t : ObjType) (target pos : ℕ) : Names rows (q.step t target r pos).1 := by
  have hclose : Names rows (q.close target r) := by
    unfold close
    split
    · exact ⟨hq.candidates, hq.last⟩
    · exact hq
  rw [step_eq]
  split
  · exact hq
  · split
    · have hid := hclose.identify hr pos
      split
      · exact hid
      · exact ⟨hid.candidates, hid.last⟩
    · split
      · refine ⟨hclose.candidates, fun cursor hc => ⟨r, hr, ?_⟩⟩
        exact Option.some.inj hc
      · exact ⟨hclose.candidates, hclose.last⟩

theorem Names.loop (t : ObjType) (target : ℕ) (l : List (Row A)) : ∀ {q : InsertQuery A},
    Names rows q → (∀ r ∈ l, r ∈ rows) → ∀ pos : ℕ, Names rows (q.loop t target l pos) := by
  induction l with
  | nil => exact fun hq _ _ => hq
  | cons r l ih =>
    intro q hq hl pos
    have hstep := hq.step (hl r List.mem_cons_self) t target pos
    unfold InsertQuery.loop
    split
    · rename_i heq
      rwa [heq] at hstep
    · rename_i heq
      rw [heq] at hstep
      exact ih hstep (fun x hx => hl x (List.mem_cons_of_mem r hx)) _

theorem resolve_names {t : ObjType} {start target index : ℕ} {query : QueryNth A}
    (hq : resolve t rows start target index = some query) :
    query.elemid = none ∨ ∃ r ∈ rows, r.cursor = query.elemid := by
  unfold resolve at hq
  dsimp only at hq
  generalize hq₀ : ({ index := index, lastWidth := none, done := decide (target ≤ index), pos := start
                      candidates := if target = 0 then [⟨none, start, none⟩] else []
                      lastVisibleCursor := none } : InsertQuery A) = q₀ at hq
  have hstart : Names rows q₀ := by
    subst hq₀
    refine ⟨fun loc hloc => ?_, fun cursor hc => nomatch hc⟩
    dsimp only at hloc
    split at hloc
    · exact Or.inl (List.mem_singleton.mp hloc ▸ rfl)
    · cases hloc
  have hnames := Names.loop t target (rows.drop start) hstart
    (fun r hr => List.mem_of_mem_drop hr) start
  rcases finish_place hq with ⟨loc, hloc, -, helem⟩ | ⟨-, hcur, -⟩
  · rw [helem]
    exact hnames.candidates loc hloc
  · exact Or.inr (hnames.last _ hcur)

end InsertQuery

/-- An insertion names the head or an element of the rows. -/
theorem queryInsertAt_names {t : ObjType} {index : ℕ} {query : QueryNth A}
    (hq : queryInsertAt t rows index = some query) :
    query.elemid = none ∨ ∃ r ∈ rows, r.cursor = query.elemid := by
  unfold queryInsertAt at hq
  dsimp only at hq
  split at hq
  · rename_i query' hfast
    cases hq
    split at hfast
    · cases hfast
    · split at hfast
      · split at hfast
        · exact InsertQuery.resolve_names hfast
        · cases hfast
      · exact InsertQuery.resolve_names hfast
  · exact InsertQuery.resolve_names hq

end Tx

end AutomergeR
