import AutomergeR.Transaction

/-! # Where an insertion goes

The scan of `InsertQuery::resolve` counts the widths of the elements that have an
operation in force; `reach` is what it counts to. A position is found by the scan exactly
when it is not beyond (`resolve_isSome`), and putting a row without width in between
takes no position away (`reach_insert_le`).
-/

namespace AutomergeR

variable {A : Type}

namespace Tx.InsertQuery

/-- What a row that does not count for the position does: nothing to the width. -/
def counts (r : Row A) : Bool := r.unhidden && !r.action.isMark

def widthOf (objType : ObjType) (r : Row A) : ℕ := if objType = .text then r.action.width else 1

/-- The position behind the last element, `last` being the width of the current one. -/
def reach (objType : ObjType) : List (Row A) → (last : Option ℕ) → ℕ
  | [], last => last.getD 0
  | r :: rows, last =>
    if r.isInc then reach objType rows last
    else if r.insert then
      last.getD 0 + reach objType rows (if counts r then some (widthOf objType r) else none)
    else reach objType rows (if counts r then some (widthOf objType r) else last)

theorem reach_cons (objType : ObjType) {r : Row A} (rows : List (Row A)) (last : Option ℕ)
    (h : r.isInc = false) :
    reach objType (r :: rows) last =
      if r.insert then
        last.getD 0 + reach objType rows (if counts r then some (widthOf objType r) else none)
      else reach objType rows (if counts r then some (widthOf objType r) else last) := by
  simp [reach, h]

/-- The state of a scan keeps a place to go to once it has counted up to its target. -/
structure Good (target : ℕ) (q : InsertQuery A) : Prop where
  width : q.done = true → q.lastWidth = none
  place : q.done = true →
    q.lastVisibleCursor.isSome = true ∨ ∃ loc ∈ q.candidates.getLast?, loc.id = none
  cursor : q.lastWidth.isSome = true → q.lastVisibleCursor.isSome = true
  short : q.done = false → q.index < target

/-! ## Candidates -/

section

variable [LinearOrder A]

/-- The candidate at the head of the sequence is behind every mark. -/
theorem closeMark_getLast? {candidates candidates' : List (Loc A)} {id : OpId A} {loc : Loc A}
    (h : closeMark candidates id = some candidates') (hl : loc ∈ candidates.getLast?)
    (hid : loc.id = none) : loc ∈ candidates'.getLast? := by
  unfold closeMark at h
  split at h
  · rename_i i hi
    cases h
    have hne : candidates ≠ [] := by
      rintro rfl
      cases hl
    have hpos : 0 < i := by
      by_contra h0
      rw [Nat.eq_zero_of_not_pos h0] at hi
      obtain ⟨hlt, hp, -⟩ := List.findIdx?_eq_some_iff_getElem.mp hi
      have hhead : candidates.reverse[0] = loc := by
        rw [List.getElem_zero, List.head_reverse]
        rw [Option.mem_def, List.getLast?_eq_some_getLast hne] at hl
        exact Option.some.inj hl
      rw [hhead, hid] at hp
      simp at hp
    have hlen := List.length_pos_iff.mpr hne
    rw [Option.mem_def, List.getLast?_drop, if_neg (by omega)]
    exact hl
  · cases h

/-- `identify` only moves the candidates. -/
theorem identify_eq (q : InsertQuery A) (r : Row A) (pos : ℕ) :
    ∃ candidates, q.identify r pos = { q with candidates := candidates } := by
  unfold identify
  dsimp only
  repeat' split
  all_goals exact ⟨_, rfl⟩

@[simp] theorem identify_done (q : InsertQuery A) (r : Row A) (pos : ℕ) :
    (q.identify r pos).done = q.done := by
  obtain ⟨candidates, heq⟩ := q.identify_eq r pos
  rw [heq]

@[simp] theorem identify_lastWidth (q : InsertQuery A) (r : Row A) (pos : ℕ) :
    (q.identify r pos).lastWidth = q.lastWidth := by
  obtain ⟨candidates, heq⟩ := q.identify_eq r pos
  rw [heq]

@[simp] theorem identify_index (q : InsertQuery A) (r : Row A) (pos : ℕ) :
    (q.identify r pos).index = q.index := by
  obtain ⟨candidates, heq⟩ := q.identify_eq r pos
  rw [heq]

@[simp] theorem identify_lastVisibleCursor (q : InsertQuery A) (r : Row A) (pos : ℕ) :
    (q.identify r pos).lastVisibleCursor = q.lastVisibleCursor := by
  obtain ⟨candidates, heq⟩ := q.identify_eq r pos
  rw [heq]

theorem identify_place {q : InsertQuery A} {r : Row A} {pos : ℕ}
    (h : q.lastVisibleCursor.isSome = true ∨ ∃ loc ∈ q.candidates.getLast?, loc.id = none) :
    (q.identify r pos).lastVisibleCursor.isSome = true ∨
      ∃ loc ∈ (q.identify r pos).candidates.getLast?, loc.id = none := by
  rw [identify_lastVisibleCursor]
  cases hcur : q.lastVisibleCursor with
  | some cursor => exact Or.inl rfl
  | none =>
    right
    rcases h with h | ⟨loc, hl, hid⟩
    · rw [hcur] at h
      cases h
    · refine ⟨loc, ?_, hid⟩
      have hne : q.candidates.isEmpty = false := by
        cases hc : q.candidates with
        | nil =>
          rw [hc] at hl
          cases hl
        | cons => rfl
      have hpush : ∀ l : Loc A, loc ∈ (l :: q.candidates).getLast? := by
        intro l
        cases hc : q.candidates with
        | nil =>
          rw [hc] at hne
          cases hne
        | cons c cs =>
          rw [List.getLast?_cons_cons, ← hc]
          exact hl
      unfold identify
      simp only [hne, Bool.and_false, hcur, Bool.false_eq_true, if_false]
      split
      · split
        · rename_i hclose
          exact closeMark_getLast? hclose hl hid
        · split
          · exact hl
          · exact hpush _
      · exact hpush _
      · exact hl

/-! ## One round of the scan -/

/-- What a scan that goes on reaches. -/
def Reaches (objType : ObjType) (target : ℕ) (q : InsertQuery A) (rows : List (Row A)) : Prop :=
  q.done = true ∨ target ≤ q.index + reach objType rows q.lastWidth

/-- The first half of a round: an insertion closes the element before it. -/
def close (target : ℕ) (q : InsertQuery A) (r : Row A) : InsertQuery A :=
  match r.insert, q.lastWidth with
  | true, some w =>
    { q with index := q.index + w, lastWidth := none, done := target ≤ q.index + w }
  | _, _ => q

theorem step_eq (objType : ObjType) (target : ℕ) (q : InsertQuery A) (r : Row A) (pos : ℕ) :
    q.step objType target r pos =
      if r.isInc then (q, false)
      else if (q.close target r).done then
        if counts r && !((q.close target r).identify r pos).candidates.isEmpty then
          ((q.close target r).identify r pos, true)
        else ({ (q.close target r).identify r pos with pos := pos }, false)
      else if counts r then
        ({ q.close target r with
           lastVisibleCursor := some r.cursor
           lastWidth := some (widthOf objType r)
           pos := pos }, false)
      else ({ q.close target r with pos := pos }, false) := rfl

omit [LinearOrder A] in
theorem close_good {target : ℕ} {q : InsertQuery A} (h : Good target q) (r : Row A) :
    Good target (q.close target r) := by
  unfold close
  split
  · rename_i w _ hw
    have hcur := h.cursor (by rw [hw]; rfl)
    refine ⟨fun _ => rfl, fun _ => Or.inl hcur, fun hn => absurd hn Bool.false_ne_true, ?_⟩
    intro hd
    simpa using hd
  · exact h

theorem step_good {objType : ObjType} {target : ℕ} {q : InsertQuery A} (h : Good target q)
    (r : Row A) (pos : ℕ) : Good target (q.step objType target r pos).1 := by
  have hc := close_good h r
  rw [step_eq]
  split
  · exact h
  · split
    · rename_i hdone
      have hi : Good target ((q.close target r).identify r pos) := by
        refine ⟨?_, fun _ => identify_place (hc.place hdone), ?_, ?_⟩
        · simpa using hc.width
        · simpa using hc.cursor
        · simpa using hc.short
      split
      · exact hi
      · exact ⟨hi.width, hi.place, hi.cursor, hi.short⟩
    · rename_i hdone
      have hnot : (q.close target r).done = false := Bool.eq_false_of_not_eq_true hdone
      split
      · refine ⟨fun hd => ?_, fun hd => ?_, fun _ => rfl, hc.short⟩
        · exact absurd hd hdone
        · exact absurd hd hdone
      · exact ⟨hc.width, hc.place, hc.cursor, hc.short⟩

omit [LinearOrder A] in
/-- A scan that is done has reached its target. -/
theorem reaches_of_close {objType : ObjType} {target : ℕ} {q : InsertQuery A} {r : Row A}
    (hinc : r.isInc = false) (hdone : (q.close target r).done = true) (rows : List (Row A)) :
    Reaches objType target q (r :: rows) := by
  unfold close at hdone
  split at hdone
  · rename_i w hr hw
    right
    have hle : target ≤ q.index + w := by simpa using hdone
    rw [reach_cons objType rows q.lastWidth hinc, if_pos hr, hw, ← Nat.add_assoc]
    exact hle.trans (Nat.le_add_right _ _)
  · exact Or.inl hdone

theorem step_reaches {objType : ObjType} {target : ℕ} {q q' : InsertQuery A} (h : Good target q)
    {r : Row A} {pos : ℕ} (hstep : q.step objType target r pos = (q', false))
    (rows : List (Row A)) :
    Reaches objType target q' rows ↔ Reaches objType target q (r :: rows) := by
  rw [step_eq] at hstep
  unfold Reaches
  cases hinc : r.isInc with
  | true =>
    simp only [hinc, if_true] at hstep
    cases hstep
    simp [reach, hinc]
  | false =>
    simp only [hinc, Bool.false_eq_true, if_false] at hstep
    rw [reach_cons objType rows q.lastWidth hinc]
    cases hdone : (q.close target r).done with
    | true =>
      have hq' : q'.done = true := by
        simp only [hdone, if_true] at hstep
        split at hstep
        · cases hstep
        · cases hstep
          simpa using hdone
      refine iff_of_true (Or.inl hq') ?_
      rw [← reach_cons objType rows q.lastWidth hinc]
      exact reaches_of_close hinc hdone rows
    | false =>
      have hq : q.done = false := by
        unfold close at hdone
        split at hdone
        · rename_i w _ hw
          cases hd : q.done with
          | false => rfl
          | true =>
            rw [h.width hd] at hw
            cases hw
        · exact hdone
      have hindex : (q.close target r).index + reach objType rows
          (if counts r then some (widthOf objType r) else (q.close target r).lastWidth) =
            q.index + (if r.insert then q.lastWidth.getD 0 + reach objType rows
                (if counts r then some (widthOf objType r) else none)
              else reach objType rows
                (if counts r then some (widthOf objType r) else q.lastWidth)) := by
        unfold close
        cases hr : r.insert with
        | false => simp
        | true =>
          cases hw : q.lastWidth with
          | none => simp [hw]
          | some w => simp [Nat.add_assoc]
      have hq' : q'.done = false ∧ q'.index = (q.close target r).index ∧
          q'.lastWidth =
            if counts r then some (widthOf objType r) else (q.close target r).lastWidth := by
        simp only [hdone, Bool.false_eq_true, if_false] at hstep
        split at hstep
        · rename_i hc
          cases hstep
          simp [hc]
        · rename_i hc
          cases hstep
          simp [hc]
      rw [hq'.1, hq'.2.1, hq'.2.2, hq, hindex]

/-- The scan stops early only when it is done. -/
theorem step_stop {objType : ObjType} {target : ℕ} {q q' : InsertQuery A}
    {r : Row A} {pos : ℕ} (hstep : q.step objType target r pos = (q', true)) :
    r.isInc = false ∧ (q.close target r).done = true ∧ q'.done = true := by
  rw [step_eq] at hstep
  split at hstep
  · cases hstep
  · rename_i hinc
    split at hstep
    · rename_i hdone
      split at hstep
      · cases hstep
        exact ⟨Bool.eq_false_of_not_eq_true hinc, hdone, by simpa using hdone⟩
      · cases hstep
    · split at hstep <;> cases hstep

/-! ## The whole scan -/

omit [LinearOrder A] in
theorem finish_isSome {objType : ObjType} {target : ℕ} {q : InsertQuery A} (h : Good target q) :
    (q.finish target).isSome = true ↔ Reaches objType target q [] := by
  unfold finish Reaches reach
  dsimp only
  cases hw : q.lastWidth with
  | some w =>
    have hd : q.done = false := by
      cases hd : q.done with
      | false => rfl
      | true =>
        rw [h.width hd] at hw
        cases hw
    obtain ⟨cursor, hcur⟩ := Option.isSome_iff_exists.mp (h.cursor (by rw [hw]; rfl))
    by_cases hle : target ≤ q.index + w
    · cases hc : q.candidates <;> simp [hle, hcur]
    · simp [hle, hd]
  | none =>
    cases hd : q.done with
    | false =>
      have := h.short hd
      simpa using this
    | true =>
      rcases h.place hd with hcur | ⟨loc, hl, -⟩
      · obtain ⟨cursor, hcur⟩ := Option.isSome_iff_exists.mp hcur
        cases hc : q.candidates <;> simp [hcur]
      · cases hc : q.candidates with
        | nil =>
          rw [hc] at hl
          cases hl
        | cons => simp

theorem loop_isSome {objType : ObjType} {target : ℕ} (rows : List (Row A)) :
    ∀ {q : InsertQuery A} (pos : ℕ), Good target q →
      (((q.loop objType target rows pos).finish target).isSome = true ↔
        Reaches objType target q rows) := by
  induction rows with
  | nil =>
    intro q pos h
    exact finish_isSome h
  | cons r rows ih =>
    intro q pos h
    have hgood : Good target (q.step objType target r pos).1 := step_good h r pos
    unfold loop
    cases hstep : q.step objType target r pos with
    | mk q' stop =>
      rw [hstep] at hgood
      cases stop with
      | false =>
        rw [← step_reaches h hstep rows]
        exact ih (pos + 1) hgood
      | true =>
        obtain ⟨hinc, hclose, hdone⟩ := step_stop hstep
        have hfinish : Reaches objType target q' [] := Or.inl hdone
        exact iff_of_true ((finish_isSome hgood).mpr hfinish)
          (reaches_of_close hinc hclose rows)

/-- The scan from the beginning finds every position that is not beyond the last
element. -/
theorem resolve_isSome (objType : ObjType) (rows : List (Row A)) (target : ℕ) :
    (resolve objType rows 0 target 0).isSome = true ↔ target ≤ reach objType rows none := by
  unfold resolve
  rw [List.drop_zero]
  have hgood : Good target
      ({ index := 0, lastWidth := none, done := target ≤ 0, pos := 0
         candidates := if target = 0 then [⟨none, 0, none⟩] else []
         lastVisibleCursor := none } : InsertQuery A) := by
    refine ⟨fun _ => rfl, fun hd => Or.inr ?_, fun hn => absurd hn Bool.false_ne_true, ?_⟩
    · have h0 : target = 0 := by simpa using hd
      simp [h0]
    · intro hd
      simpa [Nat.pos_iff_ne_zero] using hd
  rw [loop_isSome rows 0 hgood]
  unfold Reaches
  dsimp only
  constructor
  · rintro (hd | hle)
    · have h0 : target = 0 := by simpa using hd
      rw [h0]
      exact Nat.zero_le _
    · simpa using hle
  · intro hle
    right
    simpa using hle

/-- A scan that is done and has a candidate keeps it. -/
theorem loop_settled {objType : ObjType} {rows : List (Row A)}
    (h : ∀ r ∈ rows, r.action.isMark = false) (target index qpos pos : ℕ) (loc : Loc A)
    (cursor : Option (ElemId A)) :
    (loop objType target ⟨index, none, true, qpos, [loc], cursor⟩ rows pos).finish target =
      some ⟨loc.pos, index, loc.cursor⟩ := by
  induction rows generalizing qpos pos with
  | nil => rfl
  | cons r rows ih =>
    have hm := h r List.mem_cons_self
    have htail := fun r' hr' => h r' (List.mem_cons_of_mem r hr')
    have hid : identify ⟨index, none, true, qpos, [loc], cursor⟩ r pos =
        ⟨index, none, true, qpos, [loc], cursor⟩ := by
      unfold identify
      cases ha : r.action with
      | markBegin | markEnd =>
        rw [ha] at hm
        cases hm
      | make | delete | increment | put => simp
    have hclose : close target ⟨index, none, true, qpos, [loc], cursor⟩ r =
        ⟨index, none, true, qpos, [loc], cursor⟩ := by
      unfold close
      cases r.insert <;> rfl
    unfold loop
    rw [step_eq, hclose]
    cases hinc : r.isInc with
    | true => exact ih htail qpos (pos + 1)
    | false =>
      simp only [Bool.false_eq_true, if_false, if_true, hid]
      cases counts r && !List.isEmpty [loc] with
      | true => rfl
      | false => exact ih htail pos (pos + 1)

/-! ## A row without width in between -/

omit [LinearOrder A] in
theorem reach_le_getD (objType : ObjType) (rows : List (Row A)) :
    ∀ last, reach objType rows last ≤ last.getD 0 + reach objType rows none := by
  induction rows with
  | nil => exact fun last => Nat.le_add_right _ _
  | cons r rows ih =>
    intro last
    cases hinc : r.isInc with
    | true =>
      simp only [reach, hinc, if_true]
      exact ih last
    | false =>
      rw [reach_cons objType rows last hinc, reach_cons objType rows none hinc]
      split_ifs
      · simp
      · simp
      · exact Nat.le_add_left _ _
      · exact ih last

omit [LinearOrder A] in
/-- A mark puts no position out of reach. -/
theorem reach_insert_le (objType : ObjType) {m : Row A} (hinc : m.isInc = false)
    (hins : m.insert = true) (hc : counts m = false) (before after : List (Row A)) :
    ∀ last, reach objType (before ++ after) last ≤ reach objType (before ++ m :: after) last := by
  induction before with
  | nil =>
    intro last
    rw [List.nil_append, List.nil_append, reach_cons objType after last hinc, if_pos hins, hc]
    exact reach_le_getD objType after last
  | cons r before ih =>
    intro last
    rw [List.cons_append, List.cons_append]
    cases hr : r.isInc with
    | true =>
      simp only [reach, hr, if_true]
      exact ih last
    | false =>
      rw [reach_cons objType _ last hr, reach_cons objType _ last hr]
      split_ifs
      · exact Nat.add_le_add_left (ih _) _
      · exact Nat.add_le_add_left (ih _) _
      · exact ih _
      · exact ih _

end

end Tx.InsertQuery

end AutomergeR
