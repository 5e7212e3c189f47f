import AutomergeR.MapRows
import AutomergeR.SoundCalls

/-! # The index of a list

The index columns of a list are right when a row is marked visible exactly if no successor
hides it, and of every element the last visible row is named. The named rows in their order
are then the list: its length, what is at a position, and where an insertion goes.
-/

namespace AutomergeR

variable {A : Type}

namespace OpSet

/-- The last visible row of an element is named. -/
abbrev NamesLast : List (Row A) → Prop :=
  Along fun r rest => r.visible = true → (∀ x ∈ rest, x.visible = false) → r.top = true

/-- The values of a list. -/
def items (rows : List (Row A)) : List (Value A) := (rows.filter (·.top)).map Row.value

theorem nthPos_eq_none {p : Row A → Bool} {rows : List (Row A)} :
    ∀ {n : ℕ}, nthPos p n rows = none ↔ rows.countP p ≤ n := by
  induction rows with
  | nil => simp [nthPos]
  | cons r rows ih =>
    intro n
    unfold nthPos
    by_cases hp : p r = true
    · rw [if_pos hp, List.countP_cons_of_pos hp]
      cases n with
      | zero => simp
      | succ n =>
        rw [Nat.add_le_add_iff_right, ← ih]
        exact Option.map_eq_none_iff
    · rw [if_neg hp, List.countP_cons_of_neg hp, ← ih]
      exact Option.map_eq_none_iff

theorem length_items (rows : List (Row A)) : (items rows).length = rows.countP (·.top) := by
  unfold items
  rw [List.length_map, List.countP_eq_length_filter]

theorem items_append (l l' : List (Row A)) : items (l ++ l') = items l ++ items l' := by
  unfold items
  rw [List.filter_append, List.map_append]

theorem items_eq_nil {l : List (Row A)} (h : ∀ r ∈ l, r.top = false) : items l = [] := by
  unfold items
  rw [List.filter_eq_nil_iff.mpr, List.map_nil]
  intro r hr
  rw [h r hr]
  exact Bool.false_ne_true

theorem Place.items (p : Place A) :
    OpSet.items p.rows = OpSet.items p.pre ++ p.row.value :: OpSet.items p.post := by
  unfold rows elem
  rw [items_append, items_append, items_append, items_eq_nil p.above_top, List.nil_append,
    List.append_assoc]
  congr 1
  unfold OpSet.items
  rw [List.filter_cons_of_pos p.top, List.map_cons, List.cons_append]
  have hbelow := items_eq_nil p.below_top
  unfold OpSet.items at hbelow
  rw [hbelow, List.nil_append]

theorem Place.length_pre (p : Place A) : (OpSet.items p.pre).length = p.index :=
  length_items p.pre

/-- What is named at a place. -/
theorem Place.getElem?_items (p : Place A) : (OpSet.items p.rows)[p.index]? = some p.row.value := by
  rw [p.items, ← p.length_pre, List.getElem?_append_right (le_refl _), Nat.sub_self]
  rfl

/-- Every element with a visible row counts once. -/
theorem countElems_eq {rows : List (Row A)} (h : TopLast rows) (h' : NamesLast rows) :
    countElems rows false = rows.countP (·.top) ∧
      countElems rows true + ((rows.takeWhile fun x => !x.insert).any (·.visible)).toNat =
        rows.countP (·.top) := by
  induction rows with
  | nil => exact ⟨rfl, rfl⟩
  | cons r rows ih =>
    obtain ⟨hr, hrows⟩ := h
    obtain ⟨hr', hrows'⟩ := h'
    obtain ⟨hopen, hclosed⟩ := ih hrows hrows'
    have hfirst : countElems (r :: rows) false =
        if r.visible = true then countElems rows true + 1 else countElems rows false := by
      simp [countElems]
    have hcount : countElems (r :: rows) false = (r :: rows).countP (·.top) := by
      rw [hfirst]
      by_cases hv : r.visible = true
      · rw [if_pos hv]
        cases hrest : (rows.takeWhile fun x => !x.insert).any (·.visible) with
        | true =>
          have ht : ¬ r.top = true := by
            intro ht
            obtain ⟨x, hx, hxv⟩ := List.any_eq_true.mp hrest
            rw [(hr ht).2 x hx] at hxv
            cases hxv
          rw [hrest] at hclosed
          rw [List.countP_cons_of_neg ht, ← hclosed]
          rfl
        | false =>
          have ht : r.top = true := by
            apply hr' hv
            intro x hx
            exact Bool.eq_false_of_not_eq_true (List.any_eq_false.mp hrest x hx)
          rw [hrest] at hclosed
          rw [List.countP_cons_of_pos ht, ← hclosed]
          rfl
      · have ht : ¬ r.top = true := fun ht => hv (hr ht).1
        rw [if_neg hv, List.countP_cons_of_neg ht, hopen]
    refine ⟨hcount, ?_⟩
    cases hins : r.insert with
    | true =>
      have hsame : countElems (r :: rows) true = countElems (r :: rows) false := by
        simp [countElems, hins]
      rw [hsame, hcount, List.takeWhile_cons_of_neg (by rw [hins]; exact Bool.false_ne_true)]
      rfl
    | false =>
      have hsame : countElems (r :: rows) true = countElems rows true := by
        simp [countElems, hins]
      rw [hsame, List.takeWhile_cons_of_pos (by rw [hins]; rfl), List.any_cons, ← hcount,
        hfirst]
      cases hv : r.visible with
      | true => simp
      | false =>
        rw [Bool.false_or, if_neg Bool.false_ne_true, hclosed, hopen]

end OpSet

/-- What the rows of a list with a right index look like. -/
structure IndexedRows (rows : List (Row A)) : Prop extends ListRows rows where
  insertion : ∀ r ∈ rows, r.insert = true → r.isInc = false
  indexed : ∀ r ∈ rows, r.Indexed
  named : OpSet.NamesLast rows

theorem IndexedRows.nil : IndexedRows ([] : List (Row A)) where
  toListRows := ListRows.nil
  insertion _ hr := absurd hr List.not_mem_nil
  indexed _ hr := absurd hr List.not_mem_nil
  named := trivial

namespace Tx

section

variable [LinearOrder A]

/-! ## Where an insertion goes -/

namespace InsertQuery

/-- Behind the element that reaches the target the scan ends, at the next insertion or at
the end of the rows. -/
theorem loop_behind {below post : List (Row A)} {index : ℕ} {cursor : ElemId A}
    (hbelow : ∀ r ∈ below, r.insert = false ∧ (r.isInc = false → counts r = false))
    (hpost : ∀ r ∈ post.head?, r.insert = true) (hm : ∀ r ∈ post, r.action.isMark = false)
    (hinc : ∀ r ∈ post.head?, r.isInc = false) :
    ∀ (qpos pos : ℕ), qpos < pos → ∃ stop, qpos < stop ∧ stop ≤ pos + below.length ∧
      (loop .list (index + 1) ⟨index, some 1, false, qpos, [], some cursor⟩
        (below ++ post) pos).finish (index + 1) = some ⟨stop, index + 1, cursor⟩ := by
  induction below with
  | nil =>
    intro qpos pos hlt
    rw [List.nil_append]
    cases post with
    | nil => exact ⟨qpos + 1, Nat.lt_succ_self _, hlt, by simp [loop, finish]⟩
    | cons r post =>
      have hins : r.insert = true := hpost r rfl
      have hmr := hm r List.mem_cons_self
      have hrest := fun r' hr' => hm r' (List.mem_cons_of_mem r hr')
      refine ⟨pos, hlt, Nat.le_refl _, ?_⟩
      have hclose : close (index + 1) ⟨index, some 1, false, qpos, [], some cursor⟩ r =
          ⟨index + 1, none, true, qpos, [], some cursor⟩ := by
        simp [close, hins]
      have hid : identify ⟨index + 1, none, true, qpos, [], some cursor⟩ r pos =
          ⟨index + 1, none, true, qpos, [⟨cursor, pos, none⟩], some cursor⟩ := by
        unfold identify
        cases ha : r.action with
        | markBegin | markEnd =>
          rw [ha] at hmr
          cases hmr
        | make | delete | increment | put => simp [hins]
      unfold loop
      rw [step_eq, hclose, hinc r rfl]
      simp only [Bool.false_eq_true, if_false, if_true, hid]
      cases counts r && !List.isEmpty [(⟨cursor, pos, none⟩ : Loc A)] with
      | true => rfl
      | false => exact loop_settled hrest (index + 1) (index + 1) pos (pos + 1) _ _
  | cons r below ih =>
    intro qpos pos hlt
    obtain ⟨hins, hc⟩ := hbelow r List.mem_cons_self
    have hrest := fun r' hr' => hbelow r' (List.mem_cons_of_mem r hr')
    have hclose : close (index + 1) ⟨index, some 1, false, qpos, [], some cursor⟩ r =
        ⟨index, some 1, false, qpos, [], some cursor⟩ := by
      simp [close, hins]
    -- a row that does not count is noted, unless it is an increment
    have hstep : ∃ qpos', qpos ≤ qpos' ∧ qpos' < pos + 1 ∧
        step .list (index + 1) ⟨index, some 1, false, qpos, [], some cursor⟩ r pos =
          (⟨index, some 1, false, qpos', [], some cursor⟩, false) := by
      rw [step_eq, hclose]
      cases hinc : r.isInc with
      | true => exact ⟨qpos, Nat.le_refl _, Nat.lt_succ_of_lt hlt, rfl⟩
      | false => exact ⟨pos, hlt.le, Nat.lt_succ_self _, by simp [hc hinc]⟩
    obtain ⟨qpos', hle, hlt', hstep⟩ := hstep
    obtain ⟨stop, hlo, hhi, hloop⟩ := ih hrest qpos' (pos + 1) hlt'
    refine ⟨stop, hle.trans_lt hlo, by rw [List.length_cons]; omega, ?_⟩
    rw [List.cons_append]
    unfold loop
    rw [hstep]
    exact hloop

/-- A scan that starts at the row before its target. -/
theorem resolve_found (before after : List (Row A)) {r : Row A} (hinc : r.isInc = false)
    (hc : counts r = true) (index : ℕ) :
    resolve .list (before ++ r :: after) before.length (index + 1) index =
      (loop .list (index + 1) ⟨index, some 1, false, before.length, [], some r.cursor⟩ after
        (before.length + 1)).finish (index + 1) := by
  have hclose : close (index + 1) ⟨index, none, false, before.length, [], none⟩ r =
      ⟨index, none, false, before.length, [], none⟩ := by
    unfold close
    cases r.insert <;> rfl
  have hstep : step .list (index + 1) ⟨index, none, false, before.length, [], none⟩ r before.length =
      (⟨index, some 1, false, before.length, [], some r.cursor⟩, false) := by
    rw [step_eq, hclose, hinc]
    simp [hc, widthOf]
  have hlt : decide (index + 1 ≤ index) = false := by simp
  unfold resolve
  rw [List.drop_left]
  dsimp only
  rw [hlt, if_neg (Nat.succ_ne_zero index)]
  conv_lhs => unfold loop
  rw [hstep]

end InsertQuery

omit [LinearOrder A] in
/-- What the scan counts is what is marked visible. -/
theorem counts_of_indexed {r : Row A} (h : r.Indexed) (hm : r.action.isMark = false)
    (hinc : r.isInc = false) : InsertQuery.counts r = r.visible := by
  unfold InsertQuery.counts
  unfold Row.Indexed at h
  rw [h, hm, hinc]
  simp

/-- An insertion goes behind as many elements as its index says. -/
theorem queryInsertAt_index {rows : List (Row A)} (h : IndexedRows rows) {index : ℕ}
    (hi : index ≤ rows.countP (·.top)) : ∃ query, queryInsertAt .list rows index = some query ∧
      (rows.take query.pos).countP (·.top) = index := by
  cases index with
  | zero =>
    refine ⟨⟨0, 0, none⟩, ?_, rfl⟩
    unfold queryInsertAt InsertQuery.resolve
    rw [if_pos rfl]
    exact InsertQuery.loop_settled h.unmarked 0 0 0 0 ⟨none, 0, none⟩ none
  | succ i =>
    obtain ⟨pos, hpos⟩ : ∃ pos, OpSet.nthPos (·.top) i rows = some pos := by
      apply Option.ne_none_iff_exists'.mp
      intro hnone
      have := OpSet.nthPos_eq_none.mp hnone
      omega
    obtain ⟨p, rfl, rfl, -, -⟩ := h.topLast.place hpos
    have hmem : ∀ r, r ∈ p.above ∨ r = p.row ∨ r ∈ p.below ∨ r ∈ p.post → r ∈ p.rows := by
      intro r hr
      unfold OpSet.Place.rows OpSet.Place.elem
      simp only [List.mem_append, List.mem_cons]
      tauto
    have hrow : InsertQuery.counts p.row = true ∧ p.row.isInc = false := by
      have hr := hmem p.row (Or.inr (Or.inl rfl))
      have hinc : p.row.isInc = false := by
        apply Bool.eq_false_of_not_eq_true
        intro hinc
        have hv := h.isInc _ hr hinc
        rw [p.visible] at hv
        cases hv
      exact ⟨(counts_of_indexed (h.indexed _ hr) (h.unmarked _ hr) hinc).trans p.visible, hinc⟩
    have hbelow : ∀ r ∈ p.below, r.insert = false ∧
        (r.isInc = false → InsertQuery.counts r = false) := by
      intro r hr
      have hr' := hmem r (Or.inr (Or.inr (Or.inl hr)))
      refine ⟨p.below_insert hr, fun hinc => ?_⟩
      rw [counts_of_indexed (h.indexed r hr') (h.unmarked r hr') hinc]
      exact p.below_visible r hr
    let start := p.pre.length + p.above.length
    obtain ⟨stop, hlo, hhi, hloop⟩ := @InsertQuery.loop_behind A _ p.below p.post p.index
      p.row.cursor hbelow p.element.next
      (fun r hr => h.unmarked r (hmem r (Or.inr (Or.inr (Or.inr hr)))))
      (fun r hr => h.insertion r (hmem r (Or.inr (Or.inr (Or.inr (List.mem_of_mem_head? hr)))))
        (p.element.next r hr)) start (start + 1) (Nat.lt_succ_self _)
    have hsplit : p.rows = (p.pre ++ p.above) ++ p.row :: (p.below ++ p.post) := by
      simp [OpSet.Place.rows, OpSet.Place.elem]
    have hstart : (p.pre ++ p.above).length = start := List.length_append
    have hnth : OpSet.nthPos (·.top) p.index p.rows = some start := by
      have hcount : (p.pre ++ p.above).countP (·.top) = p.index := by
        rw [List.countP_append, OpSet.countP_top_eq_zero p.above_top, Nat.add_zero]
        rfl
      rw [← hcount, hsplit, OpSet.nthPos_countP _ p.top, hstart]
    have hresolve : InsertQuery.resolve .list p.rows start (p.index + 1) p.index =
        some ⟨stop, p.index + 1, p.row.cursor⟩ := by
      rw [hsplit, ← hstart, InsertQuery.resolve_found _ _ hrow.2 hrow.1, hstart]
      exact hloop
    refine ⟨⟨stop, p.index + 1, p.row.cursor⟩, ?_, ?_⟩
    · unfold queryInsertAt
      simp only [Nat.succ_ne_zero, if_false, show ¬ ObjType.list = .text by decide,
        Nat.add_sub_cancel, hnth, Option.getD_some, hresolve]
    · -- there is no named row between the element's and the place
      obtain ⟨k, rfl⟩ : ∃ k, stop = start + (k + 1) := ⟨stop - start - 1, by omega⟩
      have hk : k ≤ p.below.length := by omega
      have htake : p.rows.take (start + (k + 1)) = (p.pre ++ p.above) ++ p.row :: p.below.take k := by
        rw [hsplit, ← hstart, List.take_length_add_append, List.take_succ_cons,
          List.take_append_of_le_length hk]
      have hbelow_top : (p.below.take k).countP (·.top) = 0 :=
        OpSet.countP_top_eq_zero fun r hr => p.below_top r (List.mem_of_mem_take hr)
      rw [htake, List.countP_append, List.countP_append, OpSet.countP_top_eq_zero p.above_top,
        List.countP_cons_of_pos p.top, hbelow_top]
      rfl

end

end Tx

/-! ## The last visible rows -/

namespace OpSet

/-- In an element with a named row the last visible row is named. -/
theorem Place.namesLast (p : Place A) (hpre : NamesLast p.pre) (hpost : NamesLast p.post) :
    NamesLast p.rows := by
  refine (along_around p.element).mpr ⟨hpre, (along_element p.element.tail).mpr ?_, hpost⟩
  intro a t b hsplit hvis hlast
  -- a visible row above has the named one behind it, and none is below
  rcases List.append_eq_append_iff.mp hsplit with ⟨c, hc, hc'⟩ | ⟨c, hc, hc'⟩
  · cases c with
    | nil =>
      obtain ⟨hrow, -⟩ := List.cons.inj hc'
      rw [← hrow]
      exact p.top
    | cons x c =>
      have hno := p.below_visible t (by rw [(List.cons.inj hc').2]; simp)
      rw [hvis] at hno
      cases hno
  · cases c with
    | nil =>
      obtain ⟨hrow, -⟩ := List.cons.inj hc'
      rw [hrow]
      exact p.top
    | cons x c =>
      have hno := hlast p.row (by rw [(List.cons.inj hc').2]; simp)
      rw [p.visible] at hno
      cases hno

theorem namesLast_left {l l' : List (Row A)} (h : NamesLast (l ++ l'))
    (hgap : ∀ r ∈ l'.takeWhile fun x => !x.insert, r.visible = false) : NamesLast l := by
  induction l with
  | nil => trivial
  | cons r l ih =>
    obtain ⟨hr, hrest⟩ := h
    refine ⟨fun hv hno => hr hv fun x hx => ?_, ih hrest⟩
    rw [show (l.append l').takeWhile (fun x => !x.insert) =
      (l ++ l').takeWhile (fun x => !x.insert) from rfl, List.takeWhile_append] at hx
    split at hx
    · rename_i hall
      rcases List.mem_append.mp hx with hx | hx
      · apply hno
        rwa [List.IsPrefix.eq_of_length (List.takeWhile_prefix _) hall]
      · exact hgap x hx
    · exact hno x hx

end OpSet

namespace Tx

variable [LinearOrder A] {tx : Tx A} {obj : ObjId A}

/-! ## What every operation keeps of the rows -/

section

variable {P : Row A → Prop}

/-- What successors do not change and what holds of a new row is kept. -/
theorem forall_rows_localOp (hsucc : ∀ r s, P r → P (r.addSucc s))
    (hrow : ∀ op, op.insert = false → P (row tx.nextId op)) (h : ∀ r ∈ tx.ops.rows obj, P r)
    (key : Key A) (found : OpSet.OpsFound A) (action : OpType) :
    ∀ r ∈ (tx.localOp obj key found action).1.ops.rows obj, P r := by
  unfold localOp
  split
  · exact h
  · rename_i ops action' _
    split
    · exact h
    · intro r hr
      unfold addSuccs at hr
      rw [rows_setRows] at hr
      obtain ⟨r', hr', rfl⟩ := mem_succRows hr
      have hold : P r' := by
        rw [rows_splice tx found.endPos ⟨obj, key, false, action', ops.map Row.id⟩] at hr'
        rcases List.mem_append.mp hr' with hr' | hr'
        · rcases List.mem_append.mp hr' with hr' | hr'
          · exact h r' (List.mem_of_mem_take hr')
          · split at hr'
            · cases hr'
            · rw [List.mem_singleton.mp hr']
              exact hrow _ rfl
        · exact h r' (List.mem_of_mem_drop hr')
      split
      · exact hsucc _ _ hold
      · exact hold

theorem forall_rows_localListOp (hsucc : ∀ r s, P r → P (r.addSucc s))
    (hrow : ∀ op, op.insert = false → P (row tx.nextId op))
    (htop : ∀ r, P r → P { r with top := true }) (h : ∀ r ∈ tx.ops.rows obj, P r)
    (objType : ObjType) (n : ℕ) (action : OpType) :
    ∀ r ∈ (tx.localListOp obj objType n action).1.ops.rows obj, P r := by
  unfold localListOp
  dsimp only
  split
  · exact h
  · rename_i first _
    have hlocal := forall_rows_localOp hsucc hrow h (.seq first.cursor)
      (OpSet.seekOpsByIndex objType (tx.ops.rows obj) n) action
    split
    · rename_i tx₁ id ops heq
      rw [heq] at hlocal
      show ∀ r ∈ (tx₁.exposeCounter obj action ops).ops.rows obj, P r
      unfold exposeCounter
      split
      · split
        · split
          · intro r hr
            unfold expose at hr
            rw [rows_setRows] at hr
            obtain ⟨r', hr', rfl⟩ := List.mem_map.mp hr
            split
            · exact htop r' (hlocal r' hr')
            · exact hlocal r' hr'
          · exact hlocal
        · exact hlocal
      · exact hlocal
    · rename_i heq
      rw [heq] at hlocal
      exact hlocal

end

/-- A row whose visible column is right, and that is no increment when it inserts. -/
def RowOk (r : Row A) : Prop := r.Indexed ∧ (r.insert = true → r.isInc = false)

theorem rowOk_localListOp (h : ∀ r ∈ tx.ops.rows obj, RowOk r) (objType : ObjType) (n : ℕ)
    (action : OpType) : ∀ r ∈ (tx.localListOp obj objType n action).1.ops.rows obj, RowOk r := by
  apply forall_rows_localListOp _ _ _ h
  · rintro r s ⟨hi, hins⟩
    refine ⟨hi.addSucc s, ?_⟩
    unfold Row.isInc
    rw [Row.addSucc_insert, Row.addSucc_action]
    exact hins
  · intro op hop
    refine ⟨Row.indexed_row _ op, fun hins => ?_⟩
    rw [show (row tx.nextId op).insert = op.insert from rfl, hop] at hins
    cases hins
  · exact fun r hr => hr

/-! ## Operations at a position -/

omit [LinearOrder A] in
theorem indexedRows_of_named {rows : List (Row A)} (hl : ListRows rows)
    (hok : ∀ r ∈ rows, RowOk r) (hnamed : OpSet.NamesLast rows) : IndexedRows rows where
  toListRows := hl
  insertion r hr := (hok r hr).2
  indexed r hr := (hok r hr).1
  named := hnamed

/-- **An operation at a position keeps the index of a list right.** -/
theorem indexedRows_localListOp (h : tx.Fresh) (hl : IndexedRows (tx.ops.rows obj)) (n : ℕ)
    {action : OpType} (ha : action.isMark = false) :
    IndexedRows ((tx.localListOp obj .list n action).1.ops.rows obj) := by
  apply indexedRows_of_named (listRows_localListOp h hl.toListRows n ha)
  · exact rowOk_localListOp (fun r hr => ⟨hl.indexed r hr, hl.insertion r hr⟩) .list n action
  cases hpos : OpSet.nthPos (·.top) n (tx.ops.rows obj) with
  | none =>
    rw [localListOp_none action hpos]
    exact hl.named
  | some pos =>
    obtain ⟨p, hp, rfl, -, -⟩ := hl.topLast.place hpos
    have hnamed := hl.named
    rw [← hp] at hnamed
    obtain ⟨hpre, -, hpost⟩ := (OpSet.along_around p.element).mp hnamed
    -- the element has a place for its last visible row, or nothing visible any more
    have hplace : ∀ {tx' : Tx A} (p' : OpSet.Place A), p'.rows = tx'.ops.rows obj →
        p'.pre = p.pre → p'.post = p.post → OpSet.NamesLast (tx'.ops.rows obj) := by
      intro tx' p' hp' hpre' hpost'
      rw [← hp']
      exact p'.namesLast (hpre' ▸ hpre) (hpost' ▸ hpost)
    cases action with
    | delete =>
      obtain ⟨tx', id, heq, -, hrows⟩ := localListOp_delete h p hp
      rw [heq, hrows]
      have hel := p.element.succRows p.ids (tx.nextId, none)
        (fun r hr => absurd hr List.not_mem_nil) p.elem_ne_nil
      rw [List.append_nil] at hel
      refine (OpSet.along_around hel).mpr ⟨hpre, (OpSet.along_element hel.tail).mpr ?_, hpost⟩
      intro a t b hsplit hvis
      have hno := (p.succRows_ids tx.nextId t (by rw [OpSet.Place.elem, hsplit]; simp)).1
      rw [hvis] at hno
      cases hno
    | increment d =>
      obtain ⟨-, p', hp', hpre', hpost'⟩ := localListOp_increment_listRows h p hp hl.toListRows d
      exact hplace p' hp' hpre' hpost'
    | put v =>
      obtain ⟨tx', id, heq, -, p', hp', hpre', hpost', -⟩ :=
        localListOp_set h p hp (show (OpType.put v).isSetOrMake = true from rfl)
      rw [heq]
      exact hplace p' hp' hpre' hpost'
    | make t =>
      obtain ⟨tx', id, heq, -, p', hp', hpre', hpost', -⟩ :=
        localListOp_set h p hp (show (OpType.make t).isSetOrMake = true from rfl)
      rw [heq]
      exact hplace p' hp' hpre' hpost'
    | markBegin | markEnd => cases ha

/-! ## Insertions -/

/-- An insertion at an index of the list. -/
theorem doInsert_index (h : IndexedRows (tx.ops.rows obj)) {index : ℕ}
    (hi : index ≤ (tx.ops.rows obj).countP (·.top)) {action : OpType}
    (ha : action.isSetOrMake = true) :
    ∃ tx' pos elem, tx.doInsert obj .list index action = (tx', .ok tx.nextId) ∧
      tx'.ops.rows obj = (tx.ops.rows obj).take pos ++
        row tx.nextId ⟨obj, .seq elem, true, action, []⟩ :: (tx.ops.rows obj).drop pos ∧
      ((tx.ops.rows obj).take pos).countP (·.top) = index ∧ Gap (tx.ops.rows obj) pos := by
  obtain ⟨query, hq, hcount⟩ := queryInsertAt_index h hi
  have hne : action ≠ .delete := by
    rintro rfl
    cases ha
  have hrows := rows_splice tx query.pos ⟨obj, .seq query.elemid, true, action, []⟩
  rw [if_neg hne, List.append_assoc, List.singleton_append] at hrows
  refine ⟨_, query.pos, query.elemid, ?_, hrows, hcount, queryInsertAt_gap h.toListRows hq⟩
  unfold doInsert
  rw [hq]

omit [LinearOrder A] in
theorem indexedRows_insert {rows : List (Row A)} (h : IndexedRows rows) {pos : ℕ}
    (hgap : Gap rows pos) {action : OpType} (ha : action.isSetOrMake = true) (id : OpId A)
    (elem : ElemId A) : IndexedRows
      (rows.take pos ++ row id ⟨obj, .seq elem, true, action, []⟩ :: rows.drop pos) := by
  have hinc : action.isIncrement = false := by
    cases action <;> first | rfl | cases ha
  have hm : action.isMark = false := by
    cases action <;> first | rfl | cases ha
  have hshown : (!action.isIncrement) = true := by
    rw [hinc]
    rfl
  refine indexedRows_of_named
    (listRows_insert h.toListRows hgap rfl ⟨elem, rfl⟩ hm hinc hshown) ?_ ?_
  · intro r hr
    rcases List.mem_append.mp hr with hr | hr
    · exact ⟨h.indexed r (List.mem_of_mem_take hr), h.insertion r (List.mem_of_mem_take hr)⟩
    · rcases List.mem_cons.mp hr with rfl | hr
      · exact ⟨Row.indexed_row id _, fun _ => hinc⟩
      · exact ⟨h.indexed r (List.mem_of_mem_drop hr), h.insertion r (List.mem_of_mem_drop hr)⟩
  · have hnamed := h.named
    rw [← List.take_append_drop pos rows] at hnamed
    apply (OpSet.along_append _).mpr
    · exact ⟨OpSet.namesLast_left hnamed hgap, fun _ _ => hshown, OpSet.Along.right hnamed⟩
    · rintro r ⟨⟩
      rfl

theorem indexedRows_doInsert (h : IndexedRows (tx.ops.rows obj)) (index : ℕ) {action : OpType}
    (ha : action.isSetOrMake = true) :
    IndexedRows ((tx.doInsert obj .list index action).1.ops.rows obj) := by
  unfold doInsert
  split
  · exact h
  · rename_i query hq
    have hne : action ≠ .delete := by
      rintro rfl
      cases ha
    have hrows := rows_splice tx query.pos ⟨obj, .seq query.elemid, true, action, []⟩
    rw [if_neg hne, List.append_assoc, List.singleton_append] at hrows
    rw [hrows]
    exact indexedRows_insert h (queryInsertAt_gap h.toListRows hq) ha _ _

/-! ## Every call keeps the index -/

/-- The rows of a map in order, those of a list with a right index. -/
def RowsIndexed : ObjId A → ObjType → List (Row A) → Prop
  | _, .map, rows => MapRows rows
  | _, .list, rows => IndexedRows rows
  | _, _, _ => True

theorem rowsIndexed_invariant : RowsInvariant (A := A) RowsIndexed where
  nil _ t := by
    cases t with
    | map => exact MapRows.nil
    | list => exact IndexedRows.nil
    | table | text => trivial
  mapOp {tx obj t} _ _ hrows prop action ha hset := by
    cases t with
    | map => exact mapRows_localMapOp hrows prop action
    | list =>
      have hl : IndexedRows (tx.ops.rows obj) := hrows
      rw [localMapOp_list hl.key prop ha (hset rfl)]
      exact hl
    | table | text => trivial
  listOp {tx obj t} hfresh _ hrows _ n action ha := by
    cases t with
    | list => exact indexedRows_localListOp hfresh hrows n ha
    | text => trivial
    | map | table => contradiction
  insert {tx obj t} _ _ hrows _ index action ha := by
    cases t with
    | list => exact indexedRows_doInsert hrows index (ha rfl)
    | text => trivial
    | map | table => contradiction
  splice _ _ _ _ _ _ := trivial

end Tx

end AutomergeR
