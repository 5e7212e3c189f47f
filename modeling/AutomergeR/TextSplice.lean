import AutomergeR.AsList
import AutomergeR.InsertPosition
import AutomergeR.Merges
import AutomergeR.StoredTree

/-! # Splicing a text

A text that `am_text`, splices and merges have built is a sequence of single characters,
those that were deleted among them. `splice_text` inserts first and then deletes element
by element from behind what it has inserted. On the characters that show, a call cuts and
pastes code points (`amSpliceText_shown`), and so does a run of calls (`runSplices_spec`).
-/

namespace AutomergeR

variable {A : Type} [LinearOrder A]

namespace Row

/-- A character of a text, hidden once it is deleted. R's strings hold no NUL. The text
column of a hidden one is empty, or 0 where a merge has brought it together with its
deletion. -/
structure IsChar (r : Row A) : Prop where
  insert : r.insert = true
  action : ∃ c, c ≠ '\x00' ∧ r.action = .put (.str (String.ofList [c]))
  visible : r.visible = r.succ.isEmpty
  text : r.text.getD 0 = if r.visible then 1 else 0

omit [LinearOrder A] in
theorem IsChar.plainAction {r : Row A} (h : r.IsChar) :
    r.isInc = false ∧ r.action.isMark = false ∧ r.action.isCounter = false ∧ r.action.width = 1 := by
  obtain ⟨c, -, ha⟩ := h.action
  unfold isInc
  rw [ha]
  refine ⟨rfl, rfl, rfl, ?_⟩
  show (String.ofList [c]).length = 1
  simp

omit [LinearOrder A] in
theorem IsChar.unhidden {r : Row A} (h : r.IsChar) : r.unhidden = r.visible := by
  obtain ⟨-, -, hcounter, -⟩ := h.plainAction
  unfold Row.unhidden
  rw [hcounter, h.visible]
  rfl

/-- A successor hides a character. -/
theorem IsChar.addSucc {r : Row A} (h : r.IsChar) (s : OpId A × Option ℤ) :
    (r.addSucc s).IsChar := by
  obtain ⟨-, -, hcounter, -⟩ := h.plainAction
  unfold Row.addSucc
  rw [hcounter]
  refine ⟨h.insert, h.action, ?_, rfl⟩
  simp

theorem IsChar.foldl_addSucc (preds : List (OpId A × Option ℤ)) :
    ∀ {r : Row A}, r.IsChar → (preds.foldl Row.addSucc r).IsChar := by
  induction preds with
  | nil => exact fun h => h
  | cons s preds ih => exact fun h => ih (h.addSucc s)

theorem IsChar.adjust {r : Row A} (h : r.IsChar) (t : Tops A) : (t.adjust r).IsChar where
  insert := (t.adjust_insert r).trans h.insert
  action := (t.adjust_action r).symm ▸ h.action
  visible := by rw [Tops.adjust_visible, Tops.adjust_succ, h.visible]
  text := by rw [Tops.adjust_text, Tops.adjust_visible, h.text]

end Row

theorem RString.noNul_of_char {s : RString} {text : String} (h : s.char = some text) :
    '\x00' ∉ text.toList := by
  cases s with
  | na =>
    cases h
    decide
  | utf8 text' hno =>
    cases h
    exact hno
  | invalid bytes => cases h

/-! ## The characters that show -/

/-- The characters of a text, as `text` reads them. -/
def shown (rows : List (Row A)) : List Char :=
  (rows.filter (·.visible)).flatMap fun r => r.action.asStr.toList

omit [LinearOrder A] in
@[simp] theorem shown_nil : shown ([] : List (Row A)) = [] := rfl

omit [LinearOrder A] in
@[simp] theorem shown_append (l l' : List (Row A)) : shown (l ++ l') = shown l ++ shown l' := by
  unfold shown
  rw [List.filter_append, List.flatMap_append]

omit [LinearOrder A] in
theorem shown_cons_visible {r : Row A} (hv : r.visible = true) (l : List (Row A)) :
    shown (r :: l) = r.action.asStr.toList ++ shown l := by
  unfold shown
  rw [List.filter_cons_of_pos hv, List.flatMap_cons]

omit [LinearOrder A] in
theorem shown_cons_hidden {r : Row A} (hv : r.visible = false) (l : List (Row A)) :
    shown (r :: l) = shown l := by
  unfold shown
  rw [List.filter_cons_of_neg (by simp [hv])]

omit [LinearOrder A] in
theorem Row.IsChar.shown_one {r : Row A} (h : r.IsChar) : r.action.asStr.toList.length = 1 := by
  obtain ⟨-, -, -, hwidth⟩ := h.plainAction
  rw [String.length_toList]
  exact hwidth

omit [LinearOrder A] in
theorem text_eq_shown (s : OpSet A) (obj : ObjId A) :
    s.text obj = String.ofList (shown (s.rows obj)) := by
  have hfold : ∀ (strs : List String) (acc : String),
      strs.foldl (· ++ ·) acc = acc ++ String.ofList (strs.flatMap String.toList) := by
    intro strs
    induction strs with
    | nil => intro acc; simp
    | cons str strs ih =>
      intro acc
      rw [List.foldl_cons, ih, List.flatMap_cons, String.ofList_append, String.ofList_toList,
        String.append_assoc]
  unfold OpSet.text shown
  rw [hfold, List.flatMap_map, String.empty_append]

/-- The length of a text is the number of characters that show. -/
theorem length_eq_shown {s : OpSet A} {obj : ObjId A} (ht : s.objectType obj = some .text)
    (h : ∀ r ∈ s.rows obj, r.IsChar) : s.length obj = (shown (s.rows obj)).length := by
  have hsum : ∀ rows : List (Row A), (∀ r ∈ rows, r.IsChar) →
      ((rows.filter (·.visible)).map fun r => r.text.getD 0).sum = (shown rows).length := by
    intro rows hrows
    induction rows with
    | nil => rfl
    | cons r rows ih =>
      have hr := hrows r List.mem_cons_self
      have ih := ih fun r' hr' => hrows r' (List.mem_cons_of_mem _ hr')
      cases hv : r.visible with
      | true =>
        rw [List.filter_cons_of_pos hv, List.map_cons, List.sum_cons, ih, shown_cons_visible hv,
          List.length_append, hr.shown_one, hr.text, hv]
        rfl
      | false =>
        rw [List.filter_cons_of_neg (by simp [hv]), ih, shown_cons_hidden hv]
  unfold OpSet.length
  rw [ht]
  exact hsum _ h

omit [LinearOrder A] in
/-- The row of the character at a position. -/
theorem exists_shown_split {rows : List (Row A)} (h : ∀ r ∈ rows, r.IsChar) {i : ℕ}
    (hi : i < (shown rows).length) :
    ∃ pre r post, rows = pre ++ r :: post ∧ r.visible = true ∧ (shown pre).length = i := by
  induction rows generalizing i with
  | nil => exact absurd hi (Nat.not_lt_zero _)
  | cons r rows ih =>
    have hr := h r List.mem_cons_self
    have htail : ∀ r' ∈ rows, r'.IsChar := fun r' hr' => h r' (List.mem_cons_of_mem _ hr')
    cases hv : r.visible with
    | true =>
      rw [shown_cons_visible hv, List.length_append, hr.shown_one] at hi
      cases i with
      | zero => exact ⟨[], r, rows, rfl, hv, rfl⟩
      | succ i =>
        obtain ⟨pre, r', post, rfl, hv', hlen⟩ := ih htail (i := i) (by omega)
        refine ⟨r :: pre, r', post, rfl, hv', ?_⟩
        rw [shown_cons_visible hv, List.length_append, hr.shown_one, hlen, Nat.add_comm]
    | false =>
      rw [shown_cons_hidden hv] at hi
      obtain ⟨pre, r', post, rfl, hv', hlen⟩ := ih htail hi
      exact ⟨r :: pre, r', post, rfl, hv', by rw [shown_cons_hidden hv, hlen]⟩

omit [LinearOrder A] in
/-- `textPos` finds the row of the character. -/
theorem textPos_split {pre post : List (Row A)} {r : Row A}
    (h : ∀ r' ∈ pre ++ r :: post, r'.IsChar) (hv : r.visible = true) :
    OpSet.textPos (shown pre).length (pre ++ r :: post) = some (pre.length, (shown pre).length) := by
  induction pre with
  | nil =>
    have hr := h r List.mem_cons_self
    simp [OpSet.textPos, hr.text, hv]
  | cons p pre ih =>
    have hp := h p List.mem_cons_self
    have ih := ih fun r' hr' => h r' (List.mem_cons_of_mem _ hr')
    rw [List.cons_append]
    unfold OpSet.textPos
    rw [hp.text]
    cases hpv : p.visible with
    | true =>
      have hlen : (shown (p :: pre)).length = (shown pre).length + 1 := by
        rw [shown_cons_visible hpv, List.length_append, hp.shown_one, Nat.add_comm]
      simp [hlen, ih]
    | false =>
      simp [shown_cons_hidden hpv, ih]

omit [LinearOrder A] in
/-- Behind the last character there is none. -/
theorem textPos_none {rows : List (Row A)} (h : ∀ r ∈ rows, r.IsChar) {i : ℕ}
    (hi : (shown rows).length ≤ i) : OpSet.textPos i rows = none := by
  induction rows generalizing i with
  | nil => rfl
  | cons r rows ih =>
    have hr := h r List.mem_cons_self
    have htail : ∀ r' ∈ rows, r'.IsChar := fun r' hr' => h r' (List.mem_cons_of_mem _ hr')
    unfold OpSet.textPos
    rw [hr.text]
    cases hv : r.visible with
    | true =>
      rw [shown_cons_visible hv, List.length_append, hr.shown_one] at hi
      have hlt : ¬ i < 1 := by omega
      simp [hlt, ih htail (i := i - 1) (by omega)]
    | false =>
      rw [shown_cons_hidden hv] at hi
      simp [ih htail hi]

/-! ## Where the characters go in -/

namespace Tx

namespace InsertQuery

omit [LinearOrder A] in
theorem unmarked_chars {rows : List (Row A)} (h : ∀ r ∈ rows, r.IsChar) :
    ∀ r ∈ rows, r.action.isMark = false := by
  intro r hr
  obtain ⟨c, -, ha⟩ := (h r hr).action
  rw [ha]
  rfl

/-- Behind the character that reaches the target the query ends. -/
theorem loop_found {rows : List (Row A)} (h : ∀ r ∈ rows, r.IsChar) {target index w : ℕ}
    (qpos : ℕ) (cursor : ElemId A) (ht : target ≤ index + w) :
    (loop .text target ⟨index, some w, false, qpos, [], some cursor⟩ rows (qpos + 1)).finish target =
      some ⟨qpos + 1, index + w, cursor⟩ := by
  cases rows with
  | nil => simp [loop, finish, ht]
  | cons r rows =>
    have hr := h r List.mem_cons_self
    obtain ⟨hinc, -, -, -⟩ := hr.plainAction
    obtain ⟨c, -, ha⟩ := hr.action
    have htail : ∀ r' ∈ rows, r'.IsChar := fun r' hr' => h r' (List.mem_cons_of_mem _ hr')
    have hid : identify ⟨index + w, none, true, qpos, [], some cursor⟩ r (qpos + 1) =
        ⟨index + w, none, true, qpos, [⟨cursor, qpos + 1, none⟩], some cursor⟩ := by
      simp [identify, hr.insert, ha]
    unfold loop step
    simp only [hinc, hr.insert, ht, Bool.false_eq_true, if_false, decide_true, if_true, hid]
    cases r.unhidden && !r.action.isMark && !List.isEmpty [(⟨cursor, qpos + 1, none⟩ : Loc A)] with
    | true => rfl
    | false =>
      exact loop_settled (unmarked_chars htail) target (index + w) (qpos + 1) (qpos + 1 + 1) _ _

end InsertQuery

/-- The characters go in behind as many as show before the index. -/
theorem queryInsertAt_shown {rows : List (Row A)} (h : ∀ r ∈ rows, r.IsChar) {index : ℕ}
    (hi : index ≤ (shown rows).length) :
    ∃ query, queryInsertAt .text rows index = some query ∧ query.index = index ∧
      query.pos ≤ rows.length ∧ (shown (rows.take query.pos)).length = index := by
  cases index with
  | zero =>
    refine ⟨⟨0, 0, none⟩, ?_, rfl, Nat.zero_le _, by simp⟩
    unfold queryInsertAt InsertQuery.resolve
    exact InsertQuery.loop_settled (InsertQuery.unmarked_chars h) 0 0 0 0 ⟨none, 0, none⟩ none
  | succ i =>
    obtain ⟨pre, r, post, rfl, hv, hlen⟩ := exists_shown_split h hi
    have hr := h r (by simp)
    obtain ⟨hinc, hmark, -, hwidth⟩ := hr.plainAction
    have hpost : ∀ r' ∈ post, r'.IsChar := fun r' hr' => h r' (by simp [hr'])
    have htext := textPos_split h hv
    rw [hlen] at htext
    have hresolve : InsertQuery.resolve .text (pre ++ r :: post) pre.length (i + 1) i =
        some ⟨pre.length + 1, i + 1, r.cursor⟩ := by
      unfold InsertQuery.resolve InsertQuery.loop
      rw [List.drop_left]
      have hlt : decide (i + 1 ≤ i) = false := by simp
      simp only [InsertQuery.step, hinc, hr.unhidden, hv, hmark, hwidth, hr.insert, hlt,
        Bool.false_eq_true, if_false, Bool.not_false, Bool.and_self, if_true,
        if_neg (Nat.succ_ne_zero i)]
      exact InsertQuery.loop_found hpost pre.length r.cursor (le_refl _)
    refine ⟨⟨pre.length + 1, i + 1, r.cursor⟩, ?_, rfl, by simp, ?_⟩
    · unfold queryInsertAt
      simp [htext, hresolve]
    · have htake : (pre ++ r :: post).take (pre.length + 1) = pre ++ [r] := by
        rw [List.take_append, List.take_of_length_le (Nat.le_succ _)]
        simp
      rw [htake, shown_append, shown_cons_visible hv, List.length_append, List.length_append, hlen,
        hr.shown_one]
      rfl

/-! ## Deleting -/

omit [LinearOrder A] in
theorem length_shown_le {rows : List (Row A)} (h : ∀ r ∈ rows, r.IsChar) :
    (shown rows).length ≤ rows.length := by
  induction rows with
  | nil => exact le_refl 0
  | cons r rows ih =>
    have ih := ih fun r' hr' => h r' (List.mem_cons_of_mem _ hr')
    rw [List.length_cons]
    cases hv : r.visible with
    | true =>
      rw [shown_cons_visible hv, List.length_append, (h r List.mem_cons_self).shown_one]
      omega
    | false =>
      rw [shown_cons_hidden hv]
      omega

omit [LinearOrder A] in
theorem seekTextOps_split {pre post : List (Row A)} {r : Row A}
    (h : ∀ r' ∈ pre ++ r :: post, r'.IsChar) (hv : r.visible = true) :
    OpSet.seekTextOpsByIndex (pre ++ r :: post) (shown pre).length =
      ⟨(shown pre).length, [r], pre.length + 1⟩ := by
  have hr := h r (by simp)
  obtain ⟨-, hmark, -, -⟩ := hr.plainAction
  have hops : OpSet.textOps (r :: post) pre.length [] = ([r], pre.length + 1) := by
    have hsucc : r.succ.isEmpty = true := hr.visible ▸ hv
    unfold OpSet.textOps
    simp only [List.isEmpty_nil, Bool.not_true, Bool.and_false, Bool.false_eq_true, if_false,
      hsucc, hmark, Bool.not_false, Bool.and_self, if_true, List.nil_append]
    cases post with
    | nil => rfl
    | cons r₂ post =>
      have hinsert := (h r₂ (by simp)).insert
      unfold OpSet.textOps
      simp [hinsert]
  unfold OpSet.seekTextOpsByIndex
  rw [textPos_split h hv]
  dsimp only
  rw [List.drop_left, hops]

/-- The rows when the character of `r` has been deleted. -/
theorem rows_deleteChar {tx : Tx A} {obj : ObjId A} {pre post : List (Row A)} {r : Row A}
    (hrows : tx.ops.rows obj = pre ++ r :: post)
    (hnd : ((tx.ops.rows obj).map Row.id).Nodup) (pos : ℕ) (op : Op A) (ho : op.obj = obj)
    (ha : op.action = .delete) :
    ((tx.splice pos op).addSuccs obj [r.id] (tx.nextId, none)).ops.rows obj =
      pre ++ r.addSucc (tx.nextId, none) :: post := by
  subst ho
  have hsplice : (tx.splice pos op).ops.rows op.obj = pre ++ r :: post := by
    rw [rows_splice, ha, if_pos rfl, List.append_nil, List.take_append_drop, hrows]
  rw [hrows, List.map_append, List.map_cons] at hnd
  have hother : ∀ l : List (Row A), r.id ∉ l.map Row.id →
      succRows l [r.id] (tx.nextId, none) = l := by
    intro l hl
    apply List.map_congr_left (g := id) _ |>.trans (List.map_id l)
    intro r' hr'
    rw [if_neg]
    · rfl
    · intro hmem
      rw [List.mem_singleton] at hmem
      exact hl (List.mem_map.mpr ⟨r', hr', hmem⟩)
  have hdisj := List.nodup_append.mp hnd
  have hpre : r.id ∉ pre.map Row.id := fun hmem => hdisj.2.2 _ hmem _ List.mem_cons_self rfl
  have hpost : r.id ∉ post.map Row.id := (List.nodup_cons.mp hdisj.2.1).1
  unfold addSuccs
  rw [rows_setRows, hsplice]
  have hpre' := hother pre hpre
  have hpost' := hother post hpost
  unfold succRows at hpre' hpost' ⊢
  rw [List.map_append, List.map_cons, hpre', hpost', if_pos List.mem_cons_self]

/-- The deletions take characters away from `index` on, as long as there are any. -/
theorem deleteChars_shown (obj : ObjId A) (fuel : ℕ) :
    ∀ (tx : Tx A) (index deleted del : ℕ), (∀ r ∈ tx.ops.rows obj, r.IsChar) →
      ((tx.ops.rows obj).map Row.id).Nodup → (shown (tx.ops.rows obj)).length - index < fuel →
      (∀ r ∈ (deleteChars obj fuel tx index deleted del).ops.rows obj, r.IsChar) ∧
        shown ((deleteChars obj fuel tx index deleted del).ops.rows obj) =
          (shown (tx.ops.rows obj)).take index ++ (shown (tx.ops.rows obj)).drop
            (index + min (del - deleted) ((shown (tx.ops.rows obj)).length - index)) := by
  induction fuel with
  | zero => exact fun _ _ _ _ _ _ hfuel => absurd hfuel (Nat.not_lt_zero _)
  | succ fuel ih =>
    intro tx index deleted del h hnd hfuel
    unfold deleteChars
    by_cases hdel : del ≤ deleted
    · rw [if_pos hdel, Nat.sub_eq_zero_of_le hdel, Nat.zero_min, Nat.add_zero,
        List.take_append_drop]
      exact ⟨h, rfl⟩
    rw [if_neg hdel]
    by_cases hi : index < (shown (tx.ops.rows obj)).length
    · obtain ⟨pre, r, post, hrows, hv, rfl⟩ := exists_shown_split h hi
      have hchars : ∀ r' ∈ pre ++ r :: post, r'.IsChar := hrows ▸ h
      have hr := hchars r (by simp)
      obtain ⟨-, -, -, hwidth⟩ := hr.plainAction
      have hseek := seekTextOps_split hchars hv
      rw [← hrows] at hseek
      simp only [hseek, List.getLast?_singleton, lt_irrefl, if_false, hwidth, List.map_singleton]
      have hstep := rows_deleteChar hrows hnd (pre.length + 1)
        ⟨obj, .seq r.cursor, false, .delete, [r.id]⟩ rfl rfl
      have hchars₁ : ∀ r' ∈ pre ++ r.addSucc (tx.nextId, none) :: post, r'.IsChar := by
        intro r' hr'
        rcases List.mem_append.mp hr' with hr' | hr'
        · exact hchars r' (by simp [hr'])
        · rcases List.mem_cons.mp hr' with rfl | hr'
          · exact hr.addSucc _
          · exact hchars r' (by simp [hr'])
      have hnd₁ : ((pre ++ r.addSucc (tx.nextId, none) :: post).map Row.id).Nodup := by
        rw [hrows] at hnd
        rw [List.map_append, List.map_cons, Row.addSucc_id]
        rwa [List.map_append, List.map_cons] at hnd
      have hshown₁ : shown (pre ++ r.addSucc (tx.nextId, none) :: post) = shown pre ++ shown post := by
        rw [shown_append, shown_cons_hidden (r.addSucc_none_visible _)]
      have hshown : shown (tx.ops.rows obj) = shown pre ++ (r.action.asStr.toList ++ shown post) := by
        rw [hrows, shown_append, shown_cons_visible hv]
      have ih := ih ((tx.splice (pre.length + 1)
          ⟨obj, .seq r.cursor, false, .delete, [r.id]⟩).addSuccs obj [r.id] (tx.nextId, none))
        (shown pre).length (deleted + 1) del (hstep ▸ hchars₁) (hstep ▸ hnd₁) (by
          rw [hshown, List.length_append, List.length_append, hr.shown_one] at hfuel
          rw [hstep, hshown₁, List.length_append]
          omega)
      refine ⟨ih.1, ih.2.trans ?_⟩
      obtain ⟨c, hc⟩ := List.length_eq_one_iff.mp hr.shown_one
      have hmin : min (del - deleted) ((shown post).length + 1) =
          min (del - (deleted + 1)) (shown post).length + 1 := by omega
      rw [hstep, hshown₁, hshown, hc, List.take_left, List.take_left, List.drop_length_add_append,
        List.drop_length_add_append, List.length_append, List.length_append, Nat.add_sub_cancel_left,
        Nat.add_sub_cancel_left, List.singleton_append, List.length_cons, hmin, List.drop_succ_cons]
    · have hnone := textPos_none h (Nat.le_of_not_lt hi)
      have hseek : OpSet.seekTextOpsByIndex (tx.ops.rows obj) index =
          ⟨index, [], (tx.ops.rows obj).length⟩ := by
        unfold OpSet.seekTextOpsByIndex
        rw [hnone]
      rw [hseek]
      dsimp only [List.getLast?_nil]
      refine ⟨h, ?_⟩
      rw [Nat.sub_eq_zero_of_le (Nat.le_of_not_lt hi), Nat.min_zero, Nat.add_zero,
        List.take_append_drop]

/-! ## One call -/

/-- A text of single characters. -/
structure TextState (tx : Tx A) (obj : ObjId A) : Prop where
  fresh : tx.Fresh
  objectType : tx.ops.objectType obj = some .text
  chars : ∀ r ∈ tx.ops.rows obj, r.IsChar

omit [LinearOrder A] in
theorem CharRow.isChar {r : Row A} {c : Char} (h : CharRow r c) (hc : c ≠ '\x00') : r.IsChar where
  insert := h.plain.insert
  action := ⟨c, hc, h.action⟩
  visible := by rw [h.plain.visible, h.plain.succ]; rfl
  text := by rw [h.plain.visible, h.text]; rfl

omit [LinearOrder A] in
theorem shown_charRows {new : List (Row A)} {chars : List Char}
    (h : List.Forall₂ CharRow new chars) : shown new = chars := by
  induction h with
  | nil => rfl
  | @cons r c new chars hr _ ih =>
    have hstr : r.action.asStr.toList = [c] := by
      rw [hr.action]
      exact String.toList_ofList
    rw [shown_cons_visible hr.plain.visible, ih, hstr]
    rfl

omit [LinearOrder A] in
theorem isChar_charRows {new : List (Row A)} {chars : List Char}
    (h : List.Forall₂ CharRow new chars) (hnul : '\x00' ∉ chars) : ∀ r ∈ new, r.IsChar := by
  induction h with
  | nil => exact fun _ hr => absurd hr List.not_mem_nil
  | @cons r c new chars hr _ ih =>
    rw [List.mem_cons, not_or] at hnul
    rw [List.forall_mem_cons]
    exact ⟨hr.isChar (Ne.symm hnul.1), ih hnul.2⟩

/-- What a splice makes of the characters of a text. -/
def spliceChars (s : List Char) (pos del : ℕ) (text : List Char) : List Char :=
  s.take pos ++ text ++ s.drop (pos + min del (s.length - pos))

/-- Inserting first and deleting behind what has been inserted splices. -/
theorem spliceChars_append (pre new post : List Char) (del : ℕ) :
    (pre ++ new ++ post).take (pre.length + new.length) ++ (pre ++ new ++ post).drop
        (pre.length + new.length +
          min del ((pre ++ new ++ post).length - (pre.length + new.length))) =
      spliceChars (pre ++ post) pre.length del new := by
  have hlen : (pre ++ new).length = pre.length + new.length := List.length_append
  unfold spliceChars
  rw [← hlen, List.take_left, List.drop_length_add_append, List.take_left,
    List.drop_length_add_append, List.length_append, Nat.add_sub_cancel_left, List.length_append,
    Nat.add_sub_cancel_left]

theorem innerSplice_shown {tx : Tx A} {obj : ObjId A} (h : TextState tx obj) {index : ℕ}
    (del : ℕ) {text : String} (hnul : '\x00' ∉ text.toList) (hi : index ≤ (shown (tx.ops.rows obj)).length) :
    ∃ tx', tx.innerSplice obj index del text = (tx', .ok ()) ∧
      (∀ r ∈ tx'.ops.rows obj, r.IsChar) ∧
      shown (tx'.ops.rows obj) = spliceChars (shown (tx.ops.rows obj)) index del text.toList := by
  unfold innerSplice
  cases htext : text.toList with
  | nil =>
    have hfuel := length_shown_le h.chars
    obtain ⟨hchars, hshown⟩ := deleteChars_shown obj (2 * (tx.ops.rows obj).length + 2) tx index 0 del
      h.chars (h.fresh.nodup obj) (by omega)
    refine ⟨_, rfl, hchars, ?_⟩
    rw [hshown, Nat.sub_zero]
    unfold spliceChars
    rw [List.append_nil]
  | cons c chars =>
    obtain ⟨query, hquery, rfl, hpos, hlen⟩ := queryInsertAt_shown h.chars hi
    obtain ⟨new, hrows, hnew⟩ := rows_insertChars obj (c :: chars) tx query.pos query.elemid hpos
    have hmade := h.fresh.made h.objectType
    have hfresh := (writes_insertChars (c :: chars) query.pos query.elemid hmade).fresh h.fresh
    have hshown : shown (tx.ops.rows obj) = shown ((tx.ops.rows obj).take query.pos) ++
        shown ((tx.ops.rows obj).drop query.pos) := by
      rw [← shown_append, List.take_append_drop]
    have hchars : ∀ r ∈ (tx.insertChars obj query.pos query.elemid (c :: chars)).ops.rows obj,
        r.IsChar := by
      intro r hr
      rw [hrows] at hr
      rcases List.mem_append.mp hr with hr | hr
      · rcases List.mem_append.mp hr with hr | hr
        · exact h.chars r (List.mem_of_mem_take hr)
        · exact isChar_charRows hnew (htext ▸ hnul) r hr
      · exact h.chars r (List.mem_of_mem_drop hr)
    have hfuel := length_shown_le hchars
    obtain ⟨hchars', hshown'⟩ := deleteChars_shown obj
      (2 * ((tx.insertChars obj query.pos query.elemid (c :: chars)).ops.rows obj).length + 2)
      (tx.insertChars obj query.pos query.elemid (c :: chars)) (query.index + (c :: chars).length) 0
      del hchars (hfresh.nodup obj) (by omega)
    rw [hquery]
    refine ⟨_, rfl, hchars', ?_⟩
    rw [hshown', hrows, shown_append, shown_append, shown_charRows hnew, hshown, Nat.sub_zero, ← hlen]
    exact spliceChars_append ..

/-- A splice within the text cuts and pastes characters. -/
theorem amSpliceText_shown {tx : Tx A} {obj : ObjId A} (h : TextState tx obj) {index : ℕ}
    (del : ℕ) {initial : RString} {text : String} (hc : initial.char = some text)
    (hi : index ≤ (shown (tx.ops.rows obj)).length) :
    ∃ tx', tx.amSpliceText obj index del initial = (tx', .ok ()) ∧ TextState tx' obj ∧
      shown (tx'.ops.rows obj) = spliceChars (shown (tx.ops.rows obj)) index del text.toList := by
  obtain ⟨tx', hsplice, hchars, hshown⟩ := innerSplice_shown h del (RString.noNul_of_char hc) hi
  have hcall : tx.amSpliceText obj index del initial = (tx', .ok ()) := by
    unfold amSpliceText
    rw [length_eq_shown h.objectType h.chars, if_neg (Nat.not_lt.mpr hi), hc]
    dsimp only
    unfold spliceText objMeta
    rw [h.objectType]
    dsimp only
    rw [hsplice]
    rfl
  have hw := writes_amSpliceText h.fresh obj index del initial
  rw [hcall] at hw
  exact ⟨tx', hcall, ⟨hw.fresh h.fresh,
    (hw.objectType obj (h.fresh.made h.objectType)).trans h.objectType, hchars⟩, hshown⟩

/-- A splice beyond the end is refused. -/
theorem amSpliceText_beyond {tx : Tx A} {obj : ObjId A} (h : TextState tx obj) {index : ℕ} (del : ℕ)
    (initial : RString) (hi : (shown (tx.ops.rows obj)).length < index) :
    tx.amSpliceText obj index del initial = (tx, .error (.invalidPos "pos" index)) := by
  unfold amSpliceText
  rw [length_eq_shown h.objectType h.chars, if_pos hi]

/-! ## Runs -/

/-- An operation that splices make of a text: it puts in a character, or it deletes one. -/
def IsSplice (op : Op A) : Prop :=
  (op.insert = true ∧ ∃ c, c ≠ '\x00' ∧ op.action = .put (.str (String.ofList [c]))) ∨
    op.action = .delete

/-- The rows of a text behind a batch that splices on it have made. -/
theorem isChar_applyObj {ops : List (ChangeOp A)} {rows rows' : List (Row A)}
    (h : ∀ r ∈ rows, r.IsChar) (hops : ∀ c ∈ ops, IsSplice c.op ∧ ∀ s ∈ c.succ, s.2 = none)
    (heq : applyObj (some .text) ops rows = some rows') : ∀ r ∈ rows', r.IsChar := by
  unfold applyObj at heq
  dsimp only at heq
  by_cases hperm : ((listRegisters ops rows).flatMap Register.changes).Perm ops
  · rw [if_pos hperm, Option.some.injEq] at heq
    subst heq
    intro new hnew
    obtain ⟨g, hg, hnew⟩ := List.mem_flatMap.mp hnew
    rcases Register.mem_rows hnew with ⟨r, hr, t, preds, rfl⟩ | ⟨c, hc, hdel, conflicted, rfl⟩
    · have hmem : r ∈ rows := docs_listRegisters ops rows ▸ List.mem_flatMap.mpr ⟨g, hg, hr⟩
      exact ((h r hmem).adjust t).foldl_addSucc preds
    · obtain ⟨hsplice, hsucc⟩ := hops c (hperm.subset (List.mem_flatMap.mpr ⟨g, hg, hc⟩))
      obtain ⟨hins, x, hx, ha⟩ := hsplice.resolve_right hdel
      have hhas : c.hasSucc = !c.succ.isEmpty := by
        unfold ChangeOp.hasSucc
        cases hs : c.succ with
        | nil => rfl
        | cons s succ => simp [hsucc s (by rw [hs]; exact List.mem_cons_self)]
      have hvisible : c.visible = c.succ.isEmpty := by
        unfold ChangeOp.visible
        rw [hhas, ha]
        simp [OpType.isIncrement]
      have hwidth : c.op.action.width = 1 := by
        rw [ha]
        show (String.ofList [x]).length = 1
        simp
      refine ⟨hins, ⟨x, hx, ha⟩, hvisible, ?_⟩
      show (if c.visible then c.op.action.width else 0) = if c.visible then 1 else 0
      rw [hwidth]
  · rw [if_neg hperm] at heq
    cases heq

/-- The text behind a merge of what splices have made. -/
theorem isChar_merge {tx tx' : Tx A} {batch : List (OpId A × Op A)} {obj : ObjId A}
    (h : ∀ r ∈ tx.ops.rows obj, r.IsChar) (hsplice : ∀ p ∈ batch, p.2.obj = obj → IsSplice p.2)
    (heq : tx.merge batch = some tx') (ht : tx'.ops.objectType obj = some .text) :
    ∀ r ∈ tx'.ops.rows obj, r.IsChar := by
  obtain ⟨s, hs, rfl⟩ := Option.map_eq_some_iff.mp heq
  obtain ⟨hinfo, hrows⟩ := applyBatch_rows hs
  have ht : (tx.ops.withMade batch).objectType obj = some .text := by
    rw [← ht]
    unfold OpSet.objectType
    rw [hinfo]
  rcases hrows obj with ⟨-, hwalk⟩ | ⟨-, hsame⟩
  · rw [ht] at hwalk
    refine isChar_applyObj h (fun c hc => ?_) hwalk
    obtain ⟨hmem, hobj, hsucc⟩ := mem_orderOps hc
    refine ⟨hsplice _ hmem hobj, fun p hp => ?_⟩
    rw [hsucc] at hp
    obtain ⟨b, hb, -, rfl⟩ := mem_predsOf hp
    obtain ⟨hbmem, hbobj, -⟩ := mem_orderOps hb
    -- neither a character nor a deletion counts anything up
    rcases hsplice _ hbmem hbobj with ⟨-, x, -, ha⟩ | ha
    · have ha : b.op.action = .put (.str (String.ofList [x])) := ha
      rw [ha]
      rfl
    · have ha : b.op.action = .delete := ha
      rw [ha]
      rfl
  · show ∀ r ∈ s.rows obj, r.IsChar
    rw [hsame]
    exact h

/-- A text that `am_text`, splices and merges have built. `am_text` makes an object and
splices into it; a merge brings what splices on the text have made elsewhere, or a text the
document did not have. Between them anything may happen to other objects. -/
inductive TextBuilt (obj : ObjId A) : Tx A → Prop
  | created {tx : Tx A} (hfresh : tx.Fresh) (ht : tx.ops.objectType obj = some .text)
      (hrows : tx.ops.rows obj = []) : TextBuilt obj tx
  | received {tx tx' : Tx A} {batch : List (OpId A × Op A)} (hfresh : tx.Fresh)
      (hnew : tx.ops.objectType obj = none) (hb : tx.Fits batch)
      (hsplice : ∀ p ∈ batch, p.2.obj = obj → IsSplice p.2) (heq : tx.merge batch = some tx')
      (ht : tx'.ops.objectType obj = some .text) : TextBuilt obj tx'
  | splice {tx : Tx A} (h : TextBuilt obj tx) (pos del : ℕ) (text : RString) :
      TextBuilt obj (tx.amSpliceText obj pos del text).1
  | merge {tx tx' : Tx A} {batch : List (OpId A × Op A)} (h : TextBuilt obj tx)
      (hb : tx.Fits batch) (hsplice : ∀ p ∈ batch, p.2.obj = obj → IsSplice p.2)
      (heq : tx.merge batch = some tx') : TextBuilt obj tx'
  | elsewhere {tx tx' : Tx A} (h : TextBuilt obj tx) (hfresh : tx'.Fresh)
      (ht : tx'.ops.objectType obj = some .text) (hrows : tx'.ops.rows obj = tx.ops.rows obj) :
      TextBuilt obj tx'

theorem amSpliceText_state {tx : Tx A} {obj : ObjId A} (h : TextState tx obj) (pos del : ℕ)
    (text : RString) : TextState (tx.amSpliceText obj pos del text).1 obj := by
  by_cases hi : pos ≤ (shown (tx.ops.rows obj)).length
  · cases hc : text.char with
    | some str =>
      obtain ⟨tx', hcall, hstate, -⟩ := amSpliceText_shown h del hc hi
      rw [hcall]
      exact hstate
    | none =>
      unfold amSpliceText
      rw [hc]
      split
      · exact h
      · exact h
  · rw [amSpliceText_beyond h del text (Nat.lt_of_not_le hi)]
    exact h

theorem TextBuilt.state {tx : Tx A} {obj : ObjId A} (h : TextBuilt obj tx) : TextState tx obj := by
  induction h with
  | created hfresh ht hrows =>
    refine ⟨hfresh, ht, ?_⟩
    rw [hrows]
    exact fun _ hr => absurd hr List.not_mem_nil
  | @received tx tx' batch hfresh hnew hb hsplice heq ht =>
    refine ⟨(fresh_merge hfresh hb heq).1, ht, isChar_merge ?_ hsplice heq ht⟩
    have hempty : tx.ops.rows obj = [] := by
      obtain ⟨s, hs, rfl⟩ := Option.map_eq_some_iff.mp heq
      have ht : s.objectType obj = some .text := ht
      unfold OpSet.objectType at ht
      rw [(applyBatch_rows hs).1] at ht
      rcases objectType_withMade_cases ht with hsome | ⟨p, hp, rfl⟩
      · rw [hnew] at hsome
        cases hsome
      · exact hb.empty p hp
    rw [hempty]
    exact fun _ hr => absurd hr List.not_mem_nil
  | splice h pos del text ih => exact amSpliceText_state ih pos del text
  | @merge tx tx' batch h hb hsplice heq ih =>
    have ht : tx'.ops.objectType obj = some .text := by
      obtain ⟨s, hs, rfl⟩ := Option.map_eq_some_iff.mp heq
      show s.objectType obj = some .text
      unfold OpSet.objectType
      rw [(applyBatch_rows hs).1]
      exact objectType_withMade tx.ops batch hb.objects ih.objectType
    exact ⟨(fresh_merge ih.fresh hb heq).1, ht, isChar_merge ih.chars hsplice heq ht⟩
  | elsewhere h hfresh ht hrows ih => exact ⟨hfresh, ht, hrows.symm ▸ ih.chars⟩

/-- A call of `am_text_splice` on one text. -/
structure SpliceCall where
  pos : RValue
  delCount : RValue
  text : RString

/-- The calls of a run and whether each of them succeeds. -/
def runSplices (obj : ObjId A) : Tx A → List SpliceCall → Tx A × List Bool
  | tx, [] => (tx, [])
  | tx, c :: calls =>
    let (tx₁, reply) := tx.amTextSplice obj c.pos c.delCount (.character [] [c.text])
    let (tx₂, replies) := runSplices obj tx₁ calls
    (tx₂, reply.isOk :: replies)

/-- The string a text holds, by what R reads of it. -/
def ReadsText (tx : Tx A) (obj : ObjId A) (s : List Char) : Prop :=
  (∃ h, tx.ops.amTextGet obj = .ok (.character [] [.utf8 (String.ofList s) h])) ∧
    tx.ops.length obj = s.length

/-- A splice of a string by code points, `none` where it is refused. Positions and counts
are truncated to whole numbers, and what does not fit an R integer is NA. -/
def SpliceCall.apply (c : SpliceCall) (s : List Char) : Option (List Char) :=
  if 0 ≤ c.pos.asInteger ∧ c.pos.asInteger ≤ s.length ∧ 0 ≤ c.delCount.asInteger then
    some (spliceChars s c.pos.asInteger.toNat c.delCount.asInteger.toNat
      (c.text.char.getD "").toList)
  else none

/-- A run of splices on a string. -/
def spliceRun : List Char → List SpliceCall → List Char × List Bool
  | s, [] => (s, [])
  | s, c :: calls =>
    let (s', oks) := spliceRun ((c.apply s).getD s) calls
    (s', (c.apply s).isSome :: oks)

omit [LinearOrder A] in
theorem mem_shown_noNul {rows : List (Row A)} (h : ∀ r ∈ rows, r.IsChar) : '\x00' ∉ shown rows := by
  intro hmem
  obtain ⟨r, hr, hnul⟩ := List.mem_flatMap.mp hmem
  obtain ⟨c, hc, ha⟩ := (h r (List.mem_of_mem_filter hr)).action
  have hstr : r.action.asStr.toList = [c] := by
    rw [ha]
    exact String.toList_ofList
  rw [hstr, List.mem_singleton] at hnul
  exact hc hnul.symm

/-- R reads the characters that show. -/
theorem TextState.reads {tx : Tx A} {obj : ObjId A} (h : TextState tx obj) :
    tx.ReadsText obj (shown (tx.ops.rows obj)) := by
  have hno : '\x00' ∉ (String.ofList (shown (tx.ops.rows obj))).toList := by
    rw [String.toList_ofList]
    exact mem_shown_noNul h.chars
  refine ⟨⟨hno, ?_⟩, length_eq_shown h.objectType h.chars⟩
  unfold OpSet.amTextGet mkChar
  rw [text_eq_shown, dif_pos hno]
  rfl

/-- One call splices the string, or is refused and leaves the text alone. -/
theorem amTextSplice_apply {tx : Tx A} {obj : ObjId A} (h : TextState tx obj) {c : SpliceCall}
    (hpos : c.pos.isNumeric = true) (hdel : c.delCount.isNumeric = true)
    (htext : c.text.char.isSome = true) :
    TextState (tx.amTextSplice obj c.pos c.delCount (.character [] [c.text])).1 obj ∧
      shown ((tx.amTextSplice obj c.pos c.delCount (.character [] [c.text])).1.ops.rows obj) =
        (c.apply (shown (tx.ops.rows obj))).getD (shown (tx.ops.rows obj)) ∧
      (tx.amTextSplice obj c.pos c.delCount (.character [] [c.text])).2.isOk =
        (c.apply (shown (tx.ops.rows obj))).isSome := by
  obtain ⟨str, hstr⟩ := Option.isSome_iff_exists.mp htext
  unfold amTextSplice SpliceCall.apply
  rw [hpos, hdel]
  simp only [Bool.not_true, Bool.false_eq_true, if_false]
  by_cases hp : c.pos.asInteger < 0
  · rw [if_pos hp, if_neg (by omega)]
    exact ⟨h, rfl, rfl⟩
  rw [if_neg hp]
  by_cases hd : c.delCount.asInteger < 0
  · rw [if_pos hd, if_neg (by omega)]
    exact ⟨h, rfl, rfl⟩
  rw [if_neg hd]
  by_cases hi : c.pos.asInteger ≤ (shown (tx.ops.rows obj)).length
  · have hin : c.pos.asInteger.toNat ≤ (shown (tx.ops.rows obj)).length := by omega
    obtain ⟨tx', hcall, hstate, hshown⟩ :=
      amSpliceText_shown h c.delCount.asInteger.toNat hstr hin
    rw [hcall, if_pos ⟨by omega, hi, by omega⟩, hstr]
    exact ⟨hstate, hshown, rfl⟩
  · rw [amSpliceText_beyond h _ _ (by omega), if_neg (by omega)]
    exact ⟨h, rfl, rfl⟩

/-- A run of splices does to the text what it does to the string. -/
theorem runSplices_shown {obj : ObjId A} (calls : List SpliceCall) :
    ∀ {tx : Tx A}, TextState tx obj →
      (∀ c ∈ calls, c.pos.isNumeric = true ∧ c.delCount.isNumeric = true ∧
        c.text.char.isSome = true) →
      TextState (runSplices obj tx calls).1 obj ∧
        shown ((runSplices obj tx calls).1.ops.rows obj) =
          (spliceRun (shown (tx.ops.rows obj)) calls).1 ∧
        (runSplices obj tx calls).2 = (spliceRun (shown (tx.ops.rows obj)) calls).2 := by
  induction calls with
  | nil => exact fun h _ => ⟨h, rfl, rfl⟩
  | cons c calls ih =>
    intro tx h hcalls
    obtain ⟨hpos, hdel, htext⟩ := hcalls c List.mem_cons_self
    obtain ⟨hstate, hshown, hok⟩ := amTextSplice_apply h hpos hdel htext
    obtain ⟨hstate', hshown', hoks⟩ := ih hstate fun c' hc' => hcalls c' (List.mem_cons_of_mem _ hc')
    unfold runSplices spliceRun
    dsimp only
    rw [hshown] at hshown' hoks
    exact ⟨hstate', hshown', congrArg₂ _ hok hoks⟩

/-- Whatever text it starts from, a run of splices leaves what it leaves of the string that
was read before, and refuses the same calls. -/
theorem runSplices_spec {tx : Tx A} {obj : ObjId A} (h : TextBuilt obj tx) (calls : List SpliceCall)
    (hcalls : ∀ c ∈ calls, c.pos.isNumeric = true ∧ c.delCount.isNumeric = true ∧
      c.text.char.isSome = true) :
    ∃ s, tx.ReadsText obj s ∧ (runSplices obj tx calls).1.ReadsText obj (spliceRun s calls).1 ∧
      (runSplices obj tx calls).2 = (spliceRun s calls).2 := by
  obtain ⟨hstate, hshown, hoks⟩ := runSplices_shown calls h.state hcalls
  refine ⟨_, h.state.reads, ?_, hoks⟩
  rw [← hshown]
  exact hstate.reads

end Tx

/-- An empty text under the key `t`. -/
def emptyText : Tx ℕ := ((Tx.new 0).putObject none (.map "t") .text).1

/-- The text made by `am_text("ab")`. -/
def textAB : Tx ℕ := (emptyText.amSpliceText (some (.new 1 0)) 0 0 (.lit "ab")).1

theorem textBuilt_textAB : Tx.TextBuilt (some (.new 1 0)) textAB := by
  have hfresh : emptyText.Fresh := (Tx.writes_putObject (Tx.fresh_new 0) none (.map "t") .text).fresh
    (Tx.fresh_new 0)
  exact .splice (.created hfresh rfl rfl) 0 0 (.lit "ab")

/-- What another document has made of the text: a character behind the last one, its
deletion, and a second character in the same place. -/
def spliceBatch : List (OpId ℕ × Op ℕ) :=
  [(.new 4 1, ⟨some (.new 1 0), .seq (some (.new 3 0)), true, .put (.str "c"), []⟩),
    (.new 5 1, ⟨some (.new 1 0), .seq (some (.new 4 1)), false, .delete, [.new 4 1]⟩),
    (.new 6 1, ⟨some (.new 1 0), .seq (some (.new 3 0)), true, .put (.str "d"), []⟩)]

theorem fits_spliceBatch : textAB.Fits spliceBatch := by
  have hfresh : textAB.Fresh := textBuilt_textAB.state.fresh
  have hnext : ∀ p ∈ spliceBatch, textAB.nextId.counter ≤ p.1.counter := by decide +kernel
  have ht : ∀ p ∈ spliceBatch,
      (textAB.ops.withMade spliceBatch).objectType p.2.obj = some .text := by decide +kernel
  refine ⟨by decide, by decide +kernel, fun p hp obj r hr hid => ?_, fun p hp q hq hid => ?_,
    by decide, fun p hp h => ?_, fun p hp h => ?_, fun p hp h => ?_⟩
  · exact absurd (hid ▸ hfresh.ids obj r hr) (Nat.not_lt_of_le (hnext p hp))
  · exact absurd (hid ▸ hfresh.objects q hq) (Nat.not_lt_of_le (hnext p hp))
  · rw [ht p hp] at h
    cases h
  · rw [ht p hp] at h
    cases h
  · have hnone : ∀ p ∈ spliceBatch, p.2.action.isIncrement = false := by decide
    rw [hnone p hp] at h
    cases h

theorem isSplice_spliceBatch : ∀ p ∈ spliceBatch, Tx.IsSplice p.2 := by
  intro p hp
  simp only [spliceBatch, List.mem_cons, List.not_mem_nil, or_false] at hp
  rcases hp with rfl | rfl | rfl
  · exact Or.inl ⟨rfl, 'c', by decide, rfl⟩
  · exact Or.inr rfl
  · exact Or.inl ⟨rfl, 'd', by decide, rfl⟩

/-- The text with what the other document has made of it. -/
def mergedText : Tx ℕ := (textAB.merge spliceBatch).getD textAB

theorem textBuilt_mergedText : Tx.TextBuilt (some (.new 1 0)) mergedText := by
  have hsome : (textAB.merge spliceBatch).isSome = true := by decide +kernel
  obtain ⟨tx, htx⟩ := Option.isSome_iff_exists.mp hsome
  have hmerged : mergedText = tx := by
    unfold mergedText
    rw [htx]
    rfl
  rw [hmerged]
  exact .merge textBuilt_textAB fits_spliceBatch (fun p hp _ => isSplice_spliceBatch p hp) htx

/-- A position behind the first character, and a count that reaches beyond the end, over a
character that came with its deletion. -/
theorem runSplices_spec_merged :
    mergedText.ReadsText (some (.new 1 0)) "abd".toList ∧
      (Tx.runSplices (some (.new 1 0)) mergedText
        [⟨.integer [] [1], .integer [] [7], .lit "é"⟩]).1.ReadsText (some (.new 1 0)) "aé".toList ∧
      (Tx.runSplices (some (.new 1 0)) mergedText
        [⟨.integer [] [1], .integer [] [7], .lit "é"⟩]).2 = [true] := by
  obtain ⟨s, hs, hrun, hoks⟩ := Tx.runSplices_spec textBuilt_mergedText
    [⟨.integer [] [1], .integer [] [7], .lit "é"⟩] (fun c hc => by
      rw [List.mem_singleton.mp hc]
      exact ⟨rfl, rfl, rfl⟩)
  obtain rfl : s = "abd".toList := by
    have hread : mergedText.ops.amTextGet (some (.new 1 0)) =
        .ok (.character [] [.utf8 "abd" (by decide)]) := by
      have htext : mergedText.ops.text (some (.new 1 0)) = "abd" := by decide +kernel
      unfold OpSet.amTextGet mkChar
      rw [htext, dif_pos (by decide)]
      rfl
    obtain ⟨⟨hno, hget⟩, -⟩ := hs
    rw [hread] at hget
    have htext : "abd" = String.ofList s := by simpa using hget
    rw [htext, String.toList_ofList]
  exact ⟨hs, hrun, hoks⟩

/-- The count `2 ^ 31` is refused where a splice would delete both characters, and the
position -0.5 is taken for 0. -/
theorem amTextSplice_coerces :
    (Codec.Binary64.trunc 0x41E0000000000000 = 2 ^ 31 ∧
      (textAB.amTextSplice (some (.new 1 0)) (.integer [] [0]) (.double [] [0x41E0000000000000])
        (.character [] [.lit ""])).2 = .error (.stop "del_count must be non-negative")) ∧
      Codec.Binary64.negative 0xBFE0000000000000 = true ∧
        (textAB.amTextSplice (some (.new 1 0)) (.double [] [0xBFE0000000000000]) (.integer [] [0])
          (.character [] [.lit ""])).2 = .ok () := by
  decide +kernel

end AutomergeR
