import AutomergeR.InsertPosition
import AutomergeR.ListRows
import AutomergeR.Populate

/-! # A list after a local operation

What an operation at a position does to the element there: a put leaves one value, a
deletion none, an increment the counters.
-/

namespace AutomergeR

variable {A : Type} [LinearOrder A]

namespace Tx

theorem localListOp_none {tx : Tx A} {obj : ObjId A} {n : ℕ} (action : OpType)
    (h : OpSet.nthPos (·.top) n (tx.ops.rows obj) = none) :
    tx.localListOp obj .list n action = (tx, .error (.invalidIndex n)) := by
  unfold localListOp OpSet.seekOpsByIndex OpSet.seekListOpsByIndex
  rw [if_neg (by decide), h]
  rfl

variable {tx : Tx A} {obj : ObjId A}

/-- What is found at a place. -/
abbrev foundAt (p : OpSet.Place A) : OpSet.OpsFound A :=
  ⟨p.index, p.elem.filter (·.visible), (p.pre ++ p.elem).length⟩

theorem localListOp_place (p : OpSet.Place A) (hp : p.rows = tx.ops.rows obj) (action : OpType) :
    ∃ elem : ElemId A,
      (∀ tx₁ id ops, tx.localOp obj (.seq elem) (foundAt p) action = (tx₁, .ok (id, ops)) →
        tx.localListOp obj .list p.index action = (tx₁.exposeCounter obj action ops, .ok id)) ∧
      ∀ tx₁ e, tx.localOp obj (.seq elem) (foundAt p) action = (tx₁, .error e) →
        tx.localListOp obj .list p.index action = (tx₁, .error e) := by
  have hseek : OpSet.seekOpsByIndex .list (tx.ops.rows obj) p.index = foundAt p := by
    unfold OpSet.seekOpsByIndex
    rw [if_neg (by decide), ← hp, p.seek]
  cases hhead : (foundAt p).ops.head? with
  | none =>
    have hlast : (foundAt p).ops.getLast? = some p.row := p.getLast?
    rw [List.head?_eq_none_iff.mp hhead] at hlast
    cases hlast
  | some first =>
    refine ⟨first.cursor, fun tx₁ id ops heq => ?_, fun tx₁ e heq => ?_⟩
    · unfold localListOp
      simp only [hseek, hhead, heq]
    · unfold localListOp
      simp only [hseek, hhead, heq]

theorem exposeCounter_of_not_increment {action : OpType} (h : action.isIncrement = false)
    (tx : Tx A) (obj : ObjId A) (ops : List (Row A)) : tx.exposeCounter obj action ops = tx := by
  unfold exposeCounter
  rw [h]
  rfl

omit [LinearOrder A] in
theorem mem_of_place_ids {p : OpSet.Place A} {i : OpId A} (hi : i ∈ p.ids) :
    ∃ r ∈ p.elem, r.id = i := by
  obtain ⟨r, hr, rfl⟩ := List.mem_map.mp hi
  exact ⟨r, List.mem_of_mem_filter hr, rfl⟩

omit [LinearOrder A] in
/-- The ids of an element are not the next id. -/
theorem row_not_mem_ids (h : tx.Fresh) (p : OpSet.Place A) (hp : p.rows = tx.ops.rows obj)
    (op : Op A) : ∀ r ∈ [row tx.nextId op], r.id ∉ p.ids := by
  intro r hr
  rw [List.mem_singleton.mp hr]
  apply nextId_not_mem_ids h
  intro r' hr'
  rw [← hp]
  unfold OpSet.Place.rows
  exact List.mem_append_left _ (List.mem_append_right _ (List.mem_of_mem_filter hr'))

/-- An operation on an element leaves a list's rows in order if it does so for the named
ones. -/
theorem listRows_overwrite {rows : List (Row A)} (h : ListRows rows) (pre elem post : List (Row A))
    (hsplit : rows = pre ++ elem ++ post) (hne : elem ≠ []) {new : List (Row A)}
    (hnew : ∀ r ∈ new, (∃ e, r.key = .seq e) ∧ r.action.isMark = false ∧
      (r.isInc = true → r.visible = false))
    (ids : List (OpId A)) (s : OpId A × Option ℤ)
    (htop : OpSet.TopLast (overwrite rows (pre ++ elem).length new ids s)) :
    ListRows (overwrite rows (pre ++ elem).length new ids s) := by
  subst hsplit
  have hrows : overwrite (pre ++ elem ++ post) (pre ++ elem).length new ids s =
      succRows (pre ++ elem ++ new ++ post) ids s := by
    unfold overwrite
    rw [List.take_left, List.drop_left]
  have hmem : ∀ r ∈ pre ++ elem ++ new ++ post, r ∈ pre ++ elem ++ post ∨ r ∈ new := by
    intro r hr
    simp only [List.mem_append] at hr ⊢
    tauto
  have hold : ∀ r ∈ pre ++ elem ++ new ++ post, (∃ e, r.key = .seq e) ∧
      r.action.isMark = false ∧ (r.isInc = true → r.visible = false) := by
    intro r hr
    rcases hmem r hr with hr | hr
    · exact ⟨h.key r hr, h.unmarked r hr, h.isInc r hr⟩
    · exact hnew r hr
  rw [hrows] at htop ⊢
  refine ⟨?_, ?_, ?_, ?_, htop⟩
  · intro r hr
    cases hpre : pre ++ elem with
    | nil => exact absurd (List.append_eq_nil_iff.mp hpre).2 hne
    | cons x l =>
      have hx := h.head x (by rw [hpre]; rfl)
      rw [hpre] at hr
      cases hr
      dsimp only
      split
      · rw [Row.addSucc_insert]
        exact hx
      · exact hx
  · intro r hr
    obtain ⟨r', hr', rfl⟩ := mem_succRows hr
    split
    · rw [Row.addSucc_key]
      exact (hold r' hr').1
    · exact (hold r' hr').1
  · intro r hr
    obtain ⟨r', hr', rfl⟩ := mem_succRows hr
    split
    · rw [Row.addSucc_action]
      exact (hold r' hr').2.1
    · exact (hold r' hr').2.1
  · intro r hr hi
    obtain ⟨r', hr', rfl⟩ := mem_succRows hr
    split at hi
    · rename_i hin
      rw [if_pos hin, Row.addSucc_visible]
      unfold Row.isInc at hi
      rw [Row.addSucc_action] at hi
      rw [(hold r' hr').2.2 hi]
      rfl
    · rename_i hin
      rw [if_neg hin]
      exact (hold r' hr').2.2 hi

/-- Whether a put of `v` finds its value there. -/
abbrev finds (r : Row A) (v : ScalarValue) : Bool :=
  r.action.isSetOrMake && r.action.objType? = none && r.fixedValue.eq v

omit [LinearOrder A] in
theorem finds_iff {r : Row A} {v : ScalarValue} : finds r v = true ↔ Holds r v := by
  unfold finds Holds
  simp [and_assoc]

omit [LinearOrder A] in
theorem topLast_place {rows : List (Row A)} (hl : ListRows rows) {p : OpSet.Place A}
    (hp : p.rows = rows) (p' : OpSet.Place A) (hpre : p'.pre = p.pre) (hpost : p'.post = p.post) :
    OpSet.TopLast p'.rows := by
  have htop := hl.topLast
  rw [← hp] at htop
  obtain ⟨hbefore, -, hbehind⟩ := (OpSet.topLast_around p.element).mp htop
  exact p'.topLast (hpre ▸ hbefore) (hpost ▸ hbehind)

/-- A put or an object put at a place: one value remains there, the new one or an equal
one that was there before. -/
theorem localListOp_set (h : tx.Fresh) (p : OpSet.Place A) (hp : p.rows = tx.ops.rows obj)
    {action : OpType} (ha : action.isSetOrMake = true) :
    ∃ tx' id, tx.localListOp obj .list p.index action = (tx', .ok id) ∧
      (ListRows (tx.ops.rows obj) → ListRows (tx'.ops.rows obj)) ∧
      ∃ p' : OpSet.Place A, p'.rows = tx'.ops.rows obj ∧ p'.pre = p.pre ∧ p'.post = p.post ∧
        (p'.row.action = action ∧ p'.row.succ = [] ∧ p'.row.id = tx.nextId ∨
          ∃ v, action = .put v ∧ Holds p.row v ∧ p'.row = p.row) := by
  obtain ⟨elem, hok, -⟩ := localListOp_place p hp action
  have hinc : action.isIncrement = false := by
    cases action <;> first | rfl | cases ha
  have hne : action ≠ .delete := by
    rintro rfl
    cases ha
  have hnd : (p.rows.map Row.id).Nodup := by
    rw [hp]
    exact h.nodup obj
  have hlast : (foundAt p).ops.getLast? = some p.row := p.getLast?
  by_cases hfinds : ∃ v, action = .put v ∧ finds p.row v = true
  · obtain ⟨v, rfl, hv⟩ := hfinds
    have hkept : Holds p.row v := finds_iff.mp hv
    by_cases hlen : (foundAt p).ops.length = 1
    · have hres : resolveAction (foundAt p).ops (.put v) = none := by
        unfold resolveAction
        simp only [hlast, hv, if_true, hlen]
      have hlocal : tx.localOp obj (.seq elem) (foundAt p) (.put v) = (tx, .ok (none, [])) := by
        unfold localOp
        rw [hres]
      refine ⟨tx, none, ?_, id, p, hp, rfl, rfl, Or.inr ⟨v, rfl, hkept, rfl⟩⟩
      rw [hok _ _ _ hlocal, exposeCounter_of_not_increment hinc]
    · have hres : resolveAction (foundAt p).ops (.put v) =
          some ((foundAt p).ops.dropLast, .delete) := by
        unfold resolveAction
        simp only [hlast, hv, if_true, hlen, if_false]
      obtain ⟨tx', hlocal, hrows⟩ := rows_localOp tx obj (.seq elem) (foundAt p) hres rfl
      rw [if_pos rfl, ← hp] at hrows
      have hvis := List.dropLast_append_getLast? _ hlast
      -- the named row is not among those deleted
      have hsub : ((foundAt p).ops.map Row.id).Nodup := by
        apply hnd.sublist (List.Sublist.map Row.id _)
        unfold OpSet.Place.rows
        exact List.filter_sublist.trans
          ((List.sublist_append_right _ _).trans (List.sublist_append_left _ _))
      rw [← hvis, List.map_append, List.map_singleton] at hsub
      have hnot : p.row.id ∉ (foundAt p).ops.dropLast.map Row.id := by
        intro hin
        exact List.disjoint_of_nodup_append hsub hin List.mem_cons_self
      let p' := p.amend ((foundAt p).ops.dropLast.map Row.id) (tx.nextId, none) p.row
        (congrArg (fun r => [r]) (if_neg hnot)) [] (fun r hr => absurd hr List.not_mem_nil) p.top p.visible
      have hp' : p'.rows = tx'.ops.rows obj := by
        rw [hrows, p.overwrite hnd]
        · exact p.amend_rows ..
        · intro i hi
          obtain ⟨r, hr, rfl⟩ := List.mem_map.mp hi
          exact ⟨r, List.mem_of_mem_filter ((List.dropLast_sublist _).subset hr), rfl⟩
        · exact fun r hr => absurd hr List.not_mem_nil
      refine ⟨tx', some tx.nextId, ?_, fun hl => ?_, p', hp', rfl, rfl,
        Or.inr ⟨v, rfl, hkept, rfl⟩⟩
      · rw [hok _ _ _ hlocal, exposeCounter_of_not_increment hinc]
      · have htop := topLast_place hl hp p' rfl rfl
        rw [hp', hrows] at htop
        rw [hrows]
        rw [← hp] at hl
        exact listRows_overwrite hl p.pre p.elem p.post rfl p.elem_ne_nil
          (fun r hr => absurd hr List.not_mem_nil) _ _ htop
  · have hres : resolveAction (foundAt p).ops action = some ((foundAt p).ops, action) := by
      unfold resolveAction
      cases action with
      | put v =>
        have hv : finds p.row v = false :=
          Bool.eq_false_of_not_eq_true fun hv => hfinds ⟨v, rfl, hv⟩
        simp only [hlast, hv, Bool.false_eq_true, if_false]
      | make t => simp only [hlast]
      | delete | increment | markBegin | markEnd => cases ha
    obtain ⟨tx', hlocal, hrows⟩ := rows_localOp tx obj (.seq elem) (foundAt p) hres hinc
    rw [if_neg hne, ← hp] at hrows
    let op : Op A := ⟨obj, .seq elem, false, action, (foundAt p).ops.map Row.id⟩
    have hshown : (!action.isIncrement) = true := by
      rw [hinc]
      rfl
    let p' := p.write tx.nextId (row tx.nextId op) rfl hshown hshown
    have hp' : p'.rows = tx'.ops.rows obj := by
      rw [hrows]
      exact (p.overwrite hnd (fun i hi => mem_of_place_ids hi) (row_not_mem_ids h p hp op)
        (tx.nextId, none)).symm
    refine ⟨tx', some tx.nextId, ?_, fun hl => ?_, p', hp', rfl, rfl, Or.inl ⟨rfl, rfl, rfl⟩⟩
    · rw [hok _ _ _ hlocal, exposeCounter_of_not_increment hinc]
    · have htop := topLast_place hl hp p' rfl rfl
      rw [hp', hrows] at htop
      rw [hrows]
      rw [← hp] at hl
      refine listRows_overwrite hl p.pre p.elem p.post rfl p.elem_ne_nil ?_ _ _ htop
      intro r hr
      rw [List.mem_singleton.mp hr]
      refine ⟨⟨elem, rfl⟩, ?_, fun hi => ?_⟩
      · show action.isMark = false
        cases action <;> first | rfl | cases ha
      · rw [show (row tx.nextId op).isInc = action.isIncrement from rfl, hinc] at hi
        cases hi

/-! ## Increments -/

/-- The rows after an increment of what is found. -/
theorem rows_localOp_increment (tx : Tx A) (obj : ObjId A) (key : Key A)
    (found : OpSet.OpsFound A) (d : ℤ) (hc : ∃ op ∈ found.ops, op.action.isCounter = true) :
    ∃ tx', tx.localOp obj key found (.increment d) = (tx', .ok (some tx.nextId, found.ops)) ∧
      tx'.ops.rows obj = overwrite (tx.ops.rows obj) found.endPos
        [row tx.nextId ⟨obj, key, false, .increment d, found.ops.map Row.id⟩]
        (found.ops.map Row.id) (tx.nextId, some d) := by
  have hres : resolveAction found.ops (.increment d) = some (found.ops, .increment d) := by
    unfold resolveAction
    cases found.ops.getLast? <;> rfl
  have hany : (found.ops.all fun op => !op.action.isCounter) = false := by
    obtain ⟨op, hop, hcounter⟩ := hc
    apply List.all_eq_false.mpr
    exact ⟨op, hop, by simp [hcounter]⟩
  unfold localOp
  simp only [hres, hany, Bool.and_false, Bool.false_eq_true, if_false]
  refine ⟨_, rfl, ?_⟩
  unfold addSuccs overwrite
  rw [rows_setRows]
  exact congrArg _ (rows_splice tx found.endPos
    ⟨obj, key, false, .increment d, found.ops.map Row.id⟩)

omit [LinearOrder A] in
/-- The row of an increment is never seen. -/
theorem row_increment_unseen (id : OpId A) (obj : ObjId A) (key : Key A) (d : ℤ)
    (pred : List (OpId A)) :
    ∀ r ∈ [row id ⟨obj, key, false, .increment d, pred⟩],
      r.insert = false ∧ r.visible = false ∧ r.top = false := by
  intro r hr
  rw [List.mem_singleton.mp hr]
  exact ⟨rfl, rfl, rfl⟩

/-- An increment at a place that holds a counter is a successor of the counter. -/
theorem localListOp_increment (h : tx.Fresh) (p : OpSet.Place A)
    (hp : p.rows = tx.ops.rows obj) (hc : p.row.action.isCounter = true) (d : ℤ) :
    ∃ tx' id, tx.localListOp obj .list p.index (.increment d) = (tx', .ok id) ∧
      (ListRows (tx.ops.rows obj) → ListRows (tx'.ops.rows obj)) ∧
      ∃ p' : OpSet.Place A, p'.rows = tx'.ops.rows obj ∧ p'.pre = p.pre ∧ p'.post = p.post ∧
        p'.row = p.row.addSucc (tx.nextId, some d) := by
  obtain ⟨elem, hok, -⟩ := localListOp_place p hp (.increment d)
  have hnd : (p.rows.map Row.id).Nodup := by
    rw [hp]
    exact h.nodup obj
  have hlast : (foundAt p).ops.getLast? = some p.row := p.getLast?
  have hmem : p.row ∈ (foundAt p).ops := List.mem_of_getLast? hlast
  obtain ⟨tx', hlocal, hrows⟩ :=
    rows_localOp_increment tx obj (.seq elem) (foundAt p) d ⟨p.row, hmem, hc⟩
  -- the counter is the last value, so there is nothing to expose
  have hexpose : tx'.exposeCounter obj (.increment d) (foundAt p).ops = tx' := by
    obtain ⟨front, hfront⟩ := List.getLast?_eq_some_iff.mp hlast
    have hfirst : (foundAt p).ops.reverse.findIdx? (·.action.isCounter) = some 0 := by
      rw [hfront, List.reverse_append, List.reverse_singleton, List.singleton_append,
        List.findIdx?_cons, hc]
      rfl
    unfold exposeCounter
    rw [hfirst]
    cases (foundAt p).ops.reverse.find? (·.action.isCounter) <;> rfl
  have hvis : (p.row.addSucc (tx.nextId, some d)).visible = true := by
    rw [Row.addSucc_visible, p.visible, hc]
    rfl
  have htop : (p.row.addSucc (tx.nextId, some d)).top = true := by
    rw [Row.addSucc_top, p.top, hc]
    rfl
  let p' := p.amend p.ids (tx.nextId, some d) _
    (congrArg (fun r => [r]) (if_pos (p.mem_ids p.row_mem p.visible)))
    _ (row_increment_unseen tx.nextId obj (.seq elem) d ((foundAt p).ops.map Row.id)) htop hvis
  have hp' : p'.rows = tx'.ops.rows obj := by
    rw [hrows, ← hp]
    refine (p.amend_rows _ _ _ _ _ _ _ _).trans (p.overwrite hnd ?_ ?_ _).symm
    · exact fun i hi => mem_of_place_ids hi
    · exact row_not_mem_ids h p hp _
  refine ⟨tx', some tx.nextId, ?_, fun hl => ?_, p', hp', rfl, rfl, rfl⟩
  · rw [hok _ _ _ hlocal, hexpose]
  · have htop := topLast_place hl hp p' rfl rfl
    rw [hp', hrows] at htop
    rw [hrows]
    rw [← hp] at hl htop ⊢
    refine listRows_overwrite hl p.pre p.elem p.post rfl p.elem_ne_nil ?_ _ _ htop
    intro r hr
    rw [List.mem_singleton.mp hr]
    exact ⟨⟨elem, rfl⟩, rfl, fun _ => rfl⟩

/-! ## Deletions, and increments that expose a counter -/

theorem localListOp_delete (h : tx.Fresh) (p : OpSet.Place A) (hp : p.rows = tx.ops.rows obj) :
    ∃ tx' id, tx.localListOp obj .list p.index .delete = (tx', .ok id) ∧
      (ListRows (tx.ops.rows obj) → ListRows (tx'.ops.rows obj)) ∧
      tx'.ops.rows obj = p.pre ++ succRows p.elem p.ids (tx.nextId, none) ++ p.post := by
  obtain ⟨elem, hok, -⟩ := localListOp_place p hp .delete
  have hnd : (p.rows.map Row.id).Nodup := by
    rw [hp]
    exact h.nodup obj
  have hlast : (foundAt p).ops.getLast? = some p.row := p.getLast?
  have hres : resolveAction (foundAt p).ops .delete = some ((foundAt p).ops, .delete) := by
    unfold resolveAction
    simp only [hlast]
  obtain ⟨tx', hlocal, hrows⟩ := rows_localOp tx obj (.seq elem) (foundAt p) hres rfl
  rw [if_pos rfl, ← hp] at hrows
  have hnone : ∀ r ∈ ([] : List (Row A)), r.id ∉ p.ids := fun r hr => absurd hr List.not_mem_nil
  have hover := p.overwrite hnd (fun i hi => mem_of_place_ids hi) hnone (tx.nextId, none)
  rw [List.append_nil] at hover
  refine ⟨tx', some tx.nextId, ?_, fun hl => ?_, hrows.trans hover⟩
  · rw [hok _ _ _ hlocal, exposeCounter_of_not_increment rfl]
  · rw [hrows]
    rw [← hp] at hl
    refine listRows_overwrite hl p.pre p.elem p.post rfl p.elem_ne_nil
      (fun r hr => absurd hr List.not_mem_nil) _ _ ?_
    show OpSet.TopLast (overwrite p.rows (p.pre ++ p.elem).length [] p.ids (tx.nextId, none))
    rw [hover]
    exact p.topLast_deleted hl.topLast tx.nextId

/-- What exposing a row changes. -/
def exposed (id : OpId A) (r : Row A) : Row A := if r.id = id then { r with top := true } else r

theorem exposed_of_ne {id : OpId A} {rows : List (Row A)} (h : ∀ r ∈ rows, r.id ≠ id) :
    rows.map (exposed id) = rows := by
  conv_rhs => rw [← List.map_id rows]
  apply List.map_congr_left
  intro r hr
  unfold exposed
  rw [if_neg (h r hr)]
  rfl

theorem exposed_same (id : OpId A) (r : Row A) : (exposed id r).insert = r.insert ∧
    (exposed id r).action = r.action ∧ (exposed id r).visible = r.visible ∧
      (exposed id r).key = r.key ∧ (r.top = true → (exposed id r).top = true) := by
  unfold exposed
  split
  · exact ⟨rfl, rfl, rfl, rfl, fun _ => rfl⟩
  · exact ⟨rfl, rfl, rfl, rfl, fun h => h⟩

/-- Exposing names more rows. -/
theorem topLast_of_exposed {id : OpId A} {rows : List (Row A)}
    (h : OpSet.TopLast (rows.map (exposed id))) : OpSet.TopLast rows := by
  induction rows with
  | nil => trivial
  | cons r rows ih =>
    rw [List.map_cons] at h
    obtain ⟨hr, hrows⟩ := OpSet.topLast_cons.mp h
    refine OpSet.topLast_cons.mpr ⟨fun ht => ?_, ih hrows⟩
    obtain ⟨-, -, hvis, -, htop⟩ := exposed_same id r
    obtain ⟨hv, hrest⟩ := hr (htop ht)
    refine ⟨hvis ▸ hv, fun x hx => ?_⟩
    have hx' : exposed id x ∈ (rows.map (exposed id)).takeWhile fun y => !y.insert := by
      rw [List.takeWhile_map]
      apply List.mem_map_of_mem
      have hsame : ((fun y : Row A => !y.insert) ∘ exposed id) = fun y => !y.insert := by
        ext y
        rw [Function.comp_apply, (exposed_same id y).1]
      rwa [hsame]
    rw [← (exposed_same id x).2.2.1]
    exact hrest _ hx'

theorem listRows_exposed {rows : List (Row A)} (h : ListRows rows) (id : OpId A)
    (htop : OpSet.TopLast (rows.map (exposed id))) : ListRows (rows.map (exposed id)) := by
  refine ⟨?_, ?_, ?_, ?_, htop⟩
  · intro r hr
    cases rows with
    | nil => cases hr
    | cons x l =>
      cases hr
      rw [(exposed_same id x).1]
      exact h.head x rfl
  · intro r hr
    obtain ⟨r', hr', rfl⟩ := List.mem_map.mp hr
    rw [(exposed_same id r').2.2.2.1]
    exact h.key r' hr'
  · intro r hr
    obtain ⟨r', hr', rfl⟩ := List.mem_map.mp hr
    rw [(exposed_same id r').2.1]
    exact h.unmarked r' hr'
  · intro r hr hi
    obtain ⟨r', hr', rfl⟩ := List.mem_map.mp hr
    rw [(exposed_same id r').2.2.1]
    unfold Row.isInc at hi
    rw [(exposed_same id r').2.1] at hi
    exact h.isInc r' hr' hi

/-- When the last value is no counter, an increment hides it, and the last counter takes
its place. -/
theorem place_exposed (h : tx.Fresh) (p : OpSet.Place A) (hp : p.rows = tx.ops.rows obj)
    (hc : p.row.action.isCounter = false) {a b : List (Row A)} {c : Row A}
    (hsplit : p.elem = a ++ c :: b) (hcv : c.visible = true) (hcc : c.action.isCounter = true)
    (hb : ∀ r ∈ b, r.visible = true → r.action.isCounter = false) (d : ℤ) (inc : Row A)
    (hid : inc.id = tx.nextId) (hins : inc.insert = false) (hvis : inc.visible = false)
    (htop : inc.top = false) :
    ∃ p' : OpSet.Place A, p'.pre = p.pre ∧ p'.post = p.post ∧
      p'.rows = (p.pre ++ (succRows p.elem p.ids (tx.nextId, some d) ++ [inc]) ++ p.post).map
        (exposed c.id) := by
  have hnd : (p.rows.map Row.id).Nodup := by
    rw [hp]
    exact h.nodup obj
  let s : OpId A × Option ℤ := (tx.nextId, some d)
  -- nothing of the element is named after the increment
  have hnone : ∀ r ∈ succRows p.elem p.ids s, r.top = false := by
    intro r hr
    obtain ⟨r', hr', rfl⟩ := mem_succRows hr
    by_cases ht : r'.top = true
    · rw [p.eq_row hr' ht, if_pos (p.mem_ids p.row_mem p.visible), Row.addSucc_top, hc]
      simp
    · have ht' : r'.top = false := Bool.eq_false_of_not_eq_true ht
      split
      · rw [Row.addSucc_top, ht']
        rfl
      · exact ht'
  have hbelow : ∀ r ∈ succRows b p.ids s, r.visible = false := by
    intro r hr
    obtain ⟨r', hr', rfl⟩ := mem_succRows hr
    by_cases hv : r'.visible = true
    · have hmem : r' ∈ p.elem := by
        rw [hsplit]
        exact List.mem_append_right _ (List.mem_cons_of_mem _ hr')
      rw [if_pos (p.mem_ids hmem hv), Row.addSucc_visible, hb r' hr' hv]
      simp
    · have hv' : r'.visible = false := Bool.eq_false_of_not_eq_true hv
      split
      · rw [Row.addSucc_visible, hv']
        rfl
      · exact hv'
  have hparts : succRows p.elem p.ids s =
      succRows a p.ids s ++ c.addSucc s :: succRows b p.ids s := by
    have hcid : c.id ∈ p.ids := p.mem_ids (by rw [hsplit]; simp) hcv
    rw [hsplit]
    unfold succRows
    rw [List.map_append, List.map_cons, if_pos hcid]
  -- the id of the counter is in no other row
  have hother : ∀ r, r ∈ p.pre ∨ r ∈ a ∨ r ∈ b ∨ r ∈ p.post → r.id ≠ c.id := by
    intro r hr he
    have hmem : r.id ∈ (p.pre ++ a ++ (b ++ p.post)).map Row.id := by
      apply List.mem_map_of_mem
      simp only [List.mem_append]
      tauto
    unfold OpSet.Place.rows at hnd
    rw [hsplit] at hnd
    have hperm : (p.pre ++ (a ++ c :: b) ++ p.post).Perm (c :: (p.pre ++ a ++ (b ++ p.post))) := by
      have hmid := @List.perm_middle _ c (p.pre ++ a) (b ++ p.post)
      simpa using hmid
    have hnd' := (hperm.map Row.id).nodup_iff.mp hnd
    rw [List.map_cons] at hnd'
    rw [he] at hmem
    exact (List.nodup_cons.mp hnd').1 hmem
  have hsucc : ∀ l : List (Row A), (∀ r ∈ l, r.id ≠ c.id) →
      ∀ r ∈ succRows l p.ids s, r.id ≠ c.id := by
    intro l hl r hr
    obtain ⟨r', hr', rfl⟩ := mem_succRows hr
    split
    · rw [Row.addSucc_id]
      exact hl r' hr'
    · exact hl r' hr'
  have hinc : inc.id ≠ c.id := by
    intro he
    have hlt := h.ids obj c (by
      rw [← hp]
      unfold OpSet.Place.rows
      rw [hsplit]
      simp)
    rw [← he, hid] at hlt
    exact lt_irrefl _ hlt
  let row : Row A := { c.addSucc s with top := true }
  have hrow : exposed c.id (c.addSucc s) = row := by
    unfold exposed
    rw [if_pos (Row.addSucc_id c s)]
  have helems : (succRows p.elem p.ids s ++ [inc]).map (exposed c.id) =
      succRows a p.ids s ++ row :: (succRows b p.ids s ++ [inc]) := by
    rw [hparts, List.map_append, List.map_append, List.map_cons, hrow,
      exposed_of_ne (hsucc a fun r hr => hother r (Or.inr (Or.inl hr))),
      exposed_of_ne (hsucc b fun r hr => hother r (Or.inr (Or.inr (Or.inl hr)))),
      exposed_of_ne fun r hr => (by rw [List.mem_singleton.mp hr]; exact hinc)]
    simp
  have hmap : (p.pre ++ (succRows p.elem p.ids s ++ [inc]) ++ p.post).map (exposed c.id) =
      p.pre ++ (succRows a p.ids s ++ row :: (succRows b p.ids s ++ [inc])) ++ p.post := by
    rw [List.map_append, List.map_append, helems,
      exposed_of_ne fun r hr => hother r (Or.inl hr),
      exposed_of_ne fun r hr => hother r (Or.inr (Or.inr (Or.inr hr)))]
  have hone : ∀ r ∈ [inc], r.insert = false ∧ r.visible = false ∧ r.top = false := by
    intro r hr
    rw [List.mem_singleton.mp hr]
    exact ⟨hins, hvis, htop⟩
  have helem : OpSet.Element p.pre (succRows a p.ids s ++ row :: (succRows b p.ids s ++ [inc]))
      p.post := by
    have hel : OpSet.Element p.pre p.elem p.post := p.element
    have hmapped := (hel.succRows p.ids s (fun r hr => (hone r hr).1) p.elem_ne_nil).map
      fun r => (exposed_same c.id r).1
    rwa [helems] at hmapped
  have habove : ∀ r ∈ succRows a p.ids s, r.top = false := fun r hr =>
    hnone r (by rw [hparts]; exact List.mem_append_left _ hr)
  have hunder : ∀ r ∈ succRows b p.ids s ++ [inc], r.top = false ∧ r.visible = false := by
    intro r hr
    rcases List.mem_append.mp hr with hr | hr
    · exact ⟨hnone r (by rw [hparts]; exact List.mem_append_right _ (List.mem_cons_of_mem _ hr)),
        hbelow r hr⟩
    · exact ⟨(hone r hr).2.2, (hone r hr).2.1⟩
  have hshown : row.visible = true := by
    show (c.addSucc s).visible = true
    rw [Row.addSucc_visible, hcv, hcc]
    rfl
  exact ⟨⟨p.pre, succRows a p.ids s, row, succRows b p.ids s ++ [inc], p.post, helem, rfl, hshown,
    habove, fun r hr => (hunder r hr).1, fun r hr => (hunder r hr).2⟩, rfl, rfl, hmap.symm⟩

theorem localListOp_increment_listRows (h : tx.Fresh) (p : OpSet.Place A)
    (hp : p.rows = tx.ops.rows obj) (hl : ListRows (tx.ops.rows obj)) (d : ℤ) :
    ListRows ((tx.localListOp obj .list p.index (.increment d)).1.ops.rows obj) ∧
      ∃ p' : OpSet.Place A,
        p'.rows = (tx.localListOp obj .list p.index (.increment d)).1.ops.rows obj ∧
          p'.pre = p.pre ∧ p'.post = p.post := by
  obtain ⟨elem, hok, herr⟩ := localListOp_place p hp (.increment d)
  by_cases hc : p.row.action.isCounter = true
  · obtain ⟨tx', id, heq, hkeep, p', hp', hpre, hpost, -⟩ := localListOp_increment h p hp hc d
    rw [heq]
    exact ⟨hkeep hl, p', hp', hpre, hpost⟩
  have hc' : p.row.action.isCounter = false := Bool.eq_false_of_not_eq_true hc
  have hres : resolveAction (foundAt p).ops (.increment d) =
      some ((foundAt p).ops, .increment d) := by
    unfold resolveAction
    cases (foundAt p).ops.getLast? <;> rfl
  by_cases hany : ∃ op ∈ (foundAt p).ops, op.action.isCounter = true
  · -- the last counter among the values
    obtain ⟨tx', hlocal, hrows⟩ := rows_localOp_increment tx obj (.seq elem) (foundAt p) d hany
    obtain ⟨c, hfind⟩ : ∃ c, (foundAt p).ops.reverse.find? (·.action.isCounter) = some c := by
      obtain ⟨op, hop, hcounter⟩ := hany
      apply Option.isSome_iff_exists.mp
      rw [List.find?_isSome]
      exact ⟨op, List.mem_reverse.mpr hop, hcounter⟩
    obtain ⟨hcc, back, front, hrev, hback⟩ := List.find?_eq_some_iff_append.mp hfind
    have hvis : p.elem.filter (·.visible) = front.reverse ++ c :: back.reverse := by
      have hrev' := congrArg List.reverse hrev
      rw [List.reverse_reverse] at hrev'
      rw [show p.elem.filter (·.visible) = (foundAt p).ops from rfl, hrev']
      simp
    obtain ⟨a, b, hsplit, -, htail⟩ := List.filter_eq_append_iff.mp hvis
    obtain ⟨a', b', rfl, -, hcv, hb⟩ := List.filter_eq_cons_iff.mp htail
    rw [← List.append_assoc] at hsplit
    have hbelow : ∀ r ∈ b', r.visible = true → r.action.isCounter = false := by
      intro r hr hv
      have hmem : r ∈ back.reverse := by
        rw [← hb]
        exact List.mem_filter.mpr ⟨hr, hv⟩
      simpa using hback r (List.mem_reverse.mp hmem)
    have hpos : back ≠ [] := by
      rintro rfl
      have hlast : (foundAt p).ops.getLast? = some p.row := p.getLast?
      rw [← List.head?_reverse, hrev] at hlast
      cases hlast
      exact hc hcc
    have hindex : (foundAt p).ops.reverse.findIdx? (·.action.isCounter) = some back.length := by
      rw [hrev, List.findIdx?_append, List.findIdx?_eq_none_iff.mpr fun r hr => by
        simpa using hback r hr, Option.none_or, List.findIdx?_cons, if_pos hcc]
      simp
    have hexpose : tx'.exposeCounter obj (.increment d) (foundAt p).ops = tx'.expose obj c.id := by
      unfold exposeCounter
      simp only [hindex, hfind, OpType.isIncrement, if_true, List.length_pos_iff.mpr hpos]
    let inc := row tx.nextId ⟨obj, .seq elem, false, .increment d, (foundAt p).ops.map Row.id⟩
    obtain ⟨p', hpre, hpost, hrows'⟩ :=
      place_exposed h p hp hc' hsplit hcv hcc hbelow d inc rfl rfl rfl rfl
    have hnd : (p.rows.map Row.id).Nodup := by
      rw [hp]
      exact h.nodup obj
    have hover := p.overwrite hnd (fun i hi => mem_of_place_ids hi) (row_not_mem_ids h p hp
      ⟨obj, .seq elem, false, .increment d, (foundAt p).ops.map Row.id⟩) (tx.nextId, some d)
    have htop := topLast_place hl hp p' hpre hpost
    rw [hrows', ← hover] at htop
    have hfinal : (tx'.expose obj c.id).ops.rows obj =
        (overwrite p.rows (p.pre ++ p.elem).length [inc] p.ids (tx.nextId, some d)).map
          (exposed c.id) := by
      unfold expose
      rw [rows_setRows, hrows, ← hp]
      rfl
    rw [hok _ _ _ hlocal, hexpose, hfinal]
    rw [← hp] at hl
    refine ⟨?_, p', hrows'.trans (congrArg _ hover.symm), hpre, hpost⟩
    apply listRows_exposed _ _ htop
    refine listRows_overwrite hl p.pre p.elem p.post rfl p.elem_ne_nil ?_ _ _
      (topLast_of_exposed htop)
    intro r hr
    rw [List.mem_singleton.mp hr]
    exact ⟨⟨elem, rfl⟩, rfl, fun _ => rfl⟩
  · have hnone : ((foundAt p).ops.all fun op => !op.action.isCounter) = true := by
      rw [List.all_eq_true]
      intro op hop
      rw [Bool.eq_false_of_not_eq_true fun hcounter => hany ⟨op, hop, hcounter⟩]
      rfl
    have hlocal : tx.localOp obj (.seq elem) (foundAt p) (.increment d) = (tx, .error .missingCounter) := by
      unfold localOp
      simp only [hres, hnone, OpType.isIncrement, Bool.and_self, if_true]
    rw [herr _ _ hlocal]
    exact ⟨hl, p, hp, rfl, rfl⟩

/-- **An operation at a position keeps a list's rows in order.** -/
theorem listRows_localListOp (h : tx.Fresh) (hl : ListRows (tx.ops.rows obj)) (n : ℕ)
    {action : OpType} (ha : action.isMark = false) :
    ListRows ((tx.localListOp obj .list n action).1.ops.rows obj) := by
  cases hpos : OpSet.nthPos (·.top) n (tx.ops.rows obj) with
  | none =>
    rw [localListOp_none action hpos]
    exact hl
  | some pos =>
    obtain ⟨p, hp, rfl, -, -⟩ := hl.topLast.place hpos
    cases action with
    | delete =>
      obtain ⟨tx', id, heq, hkeep, -⟩ := localListOp_delete h p hp
      rw [heq]
      exact hkeep hl
    | increment d => exact (localListOp_increment_listRows h p hp hl d).1
    | put v =>
      obtain ⟨tx', id, heq, hkeep, -⟩ :=
        localListOp_set h p hp (show (OpType.put v).isSetOrMake = true from rfl)
      rw [heq]
      exact hkeep hl
    | make t =>
      obtain ⟨tx', id, heq, hkeep, -⟩ :=
        localListOp_set h p hp (show (OpType.make t).isSetOrMake = true from rfl)
      rw [heq]
      exact hkeep hl
    | markBegin | markEnd => cases ha

/-! ## Insertions -/

/-- An insertion at `pos` takes nothing that is visible out of its element. -/
def Gap (rows : List (Row A)) (pos : ℕ) : Prop :=
  ∀ r ∈ (rows.drop pos).takeWhile fun x => !x.insert, r.visible = false

omit [LinearOrder A] in
theorem gap_of_insert {rows : List (Row A)} {pos : ℕ}
    (h : ∀ r ∈ (rows.drop pos).head?, r.insert = true) : Gap rows pos := by
  intro r hr
  cases hd : rows.drop pos with
  | nil =>
    rw [hd] at hr
    cases hr
  | cons x l =>
    rw [hd] at h hr
    rw [List.takeWhile_cons_of_neg (by rw [h x rfl]; exact Bool.false_ne_true)] at hr
    cases hr

namespace InsertQuery

/-- What the scan of a list keeps at `pos`: every candidate is a gap, and since the
position `q.pos` it has passed nothing but increments. -/
structure Gaps (rows : List (Row A)) (q : InsertQuery A) (pos : ℕ) : Prop where
  candidates : ∀ loc ∈ q.candidates, Gap rows loc.pos
  passed : q.lastVisibleCursor.isSome = true → ∀ i r, q.pos < i → i < pos → rows[i]? = some r →
    r.isInc = true

theorem identify_gaps {rows : List (Row A)} {q : InsertQuery A} {pos : ℕ} {r : Row A}
    (h : Gaps rows q pos) (hr : rows[pos]? = some r) (hm : r.action.isMark = false) :
    ∀ loc ∈ (q.identify r pos).candidates, Gap rows loc.pos := by
  -- a row that is no mark leaves the candidates as they are, but for the first one
  have hcases : (q.identify r pos).candidates = q.candidates ∨ r.insert = true ∧
      ∃ cursor, (q.identify r pos).candidates = [⟨cursor, pos, none⟩] := by
    unfold identify
    cases hb : r.insert && q.candidates.isEmpty with
    | false =>
      left
      cases ha : r.action with
      | markBegin | markEnd =>
        rw [ha] at hm
        cases hm
      | make | delete | increment | put => cases hc : q.candidates <;> simp
    | true =>
      cases hcur : q.lastVisibleCursor with
      | none =>
        left
        cases ha : r.action with
        | markBegin | markEnd =>
          rw [ha] at hm
          cases hm
        | make | delete | increment | put => cases hc : q.candidates <;> simp
      | some cursor =>
        right
        refine ⟨(Bool.and_eq_true_iff.mp hb).1, cursor, ?_⟩
        cases ha : r.action with
        | markBegin | markEnd =>
          rw [ha] at hm
          cases hm
        | make | delete | increment | put => simp
  rcases hcases with heq | ⟨hins, cursor, heq⟩
  · rw [heq]
    exact h.candidates
  · rw [heq]
    intro loc hloc
    rw [List.mem_singleton.mp hloc]
    apply gap_of_insert
    intro x hx
    rw [List.head?_drop, hr] at hx
    cases hx
    exact hins

theorem step_gaps {rows : List (Row A)} (target : ℕ) {q : InsertQuery A} {pos : ℕ} {r : Row A}
    (h : Gaps rows q pos) (hr : rows[pos]? = some r) (hm : r.action.isMark = false) :
    (∀ loc ∈ (q.step .list target r pos).1.candidates, Gap rows loc.pos) ∧
      ((q.step .list target r pos).2 = false → Gaps rows (q.step .list target r pos).1 (pos + 1)) ∧
      ((q.step .list target r pos).2 = true → (q.step .list target r pos).1.candidates ≠ []) := by
  have hclose : Gaps rows (q.close target r) pos := by
    unfold close
    split
    · exact ⟨h.candidates, h.passed⟩
    · exact h
  -- a row that is no increment is noted
  have hnoted : ∀ q' : InsertQuery A, q'.pos = pos → (∀ loc ∈ q'.candidates, Gap rows loc.pos) →
      Gaps rows q' (pos + 1) := by
    intro q' hq hc
    refine ⟨hc, fun _ i x hi hlt _ => ?_⟩
    omega
  rw [step_eq]
  split
  · rename_i hinc
    refine ⟨h.candidates, fun _ => ⟨h.candidates, fun hcur i x hi hlt hx => ?_⟩, fun hn => by cases hn⟩
    rcases Nat.lt_succ_iff_lt_or_eq.mp hlt with hlt | rfl
    · exact h.passed hcur i x hi hlt hx
    · rw [hr] at hx
      cases hx
      exact hinc
  · split
    · have hid := identify_gaps hclose hr hm
      split
      · rename_i hstop
        refine ⟨hid, fun hn => (by cases hn), fun _ hnil => ?_⟩
        rw [hnil] at hstop
        simp at hstop
      · exact ⟨hid, fun _ => hnoted _ rfl hid, fun hn => (by cases hn)⟩
    · split
      · exact ⟨hclose.candidates, fun _ => hnoted _ rfl hclose.candidates, fun hn => (by cases hn)⟩
      · exact ⟨hclose.candidates, fun _ => hnoted _ rfl hclose.candidates, fun hn => (by cases hn)⟩

omit [LinearOrder A] in
/-- What `finish` yields: a candidate, or the position behind the last row noted. -/
theorem finish_cases {target : ℕ} {q : InsertQuery A} {query : QueryNth A}
    (h : q.finish target = some query) : (∃ loc ∈ q.candidates, query.pos = loc.pos) ∨
      q.candidates = [] ∧ q.lastVisibleCursor.isSome = true ∧ query.pos = q.pos + 1 := by
  unfold finish at h
  dsimp only at h
  by_cases hd : (!if q.lastWidth.isSome then decide (target ≤ q.index + q.lastWidth.getD 0)
      else q.done) = true
  · rw [if_pos hd] at h
    cases h
  · rw [if_neg hd] at h
    cases hc : q.candidates with
    | cons loc rest =>
      rw [hc] at h
      cases h
      exact Or.inl ⟨loc, List.mem_cons_self, rfl⟩
    | nil =>
      rw [hc] at h
      cases hcur : q.lastVisibleCursor with
      | none =>
        rw [hcur] at h
        cases h
      | some cursor =>
        rw [hcur] at h
        cases h
        exact Or.inr ⟨rfl, rfl, rfl⟩

theorem loop_gaps {rows : List (Row A)} (h : ListRows rows) {target : ℕ} (l : List (Row A)) :
    ∀ {q : InsertQuery A} {pos : ℕ} {query : QueryNth A}, rows.drop pos = l → Gaps rows q pos →
      (q.loop .list target l pos).finish target = some query → Gap rows query.pos := by
  induction l with
  | nil =>
    intro q pos query hl hq hfin
    have hfin : q.finish target = some query := hfin
    rcases finish_cases hfin with ⟨loc, hloc, heq⟩ | ⟨-, hcur, heq⟩
    · rw [heq]
      exact hq.candidates loc hloc
    · -- nothing but increments is left behind it
      rw [heq]
      intro r hr
      have hmem := (List.takeWhile_sublist _).subset hr
      obtain ⟨i, hi, rfl⟩ := List.getElem_of_mem hmem
      rw [List.length_drop] at hi
      rw [List.getElem_drop]
      have hlen : rows.length ≤ pos := by
        have := congrArg List.length hl
        rw [List.length_drop] at this
        exact Nat.sub_eq_zero_iff_le.mp this
      apply h.isInc _ (List.getElem_mem _)
      exact hq.passed hcur (q.pos + 1 + i) _ (by omega) (by omega)
        (List.getElem?_eq_getElem (by omega))
  | cons r l ih =>
    intro q pos query hl hq hfin
    have hr : rows[pos]? = some r := by
      have hhead := congrArg List.head? hl
      rwa [List.head?_drop, List.head?_cons] at hhead
    obtain ⟨hcand, hgo, hstop⟩ :=
      step_gaps target hq hr (h.unmarked r (List.mem_of_getElem? hr))
    unfold loop at hfin
    cases hstep : q.step .list target r pos with
    | mk q' stop =>
      rw [hstep] at hfin hcand hgo hstop
      cases stop with
      | false =>
        refine ih ?_ (hgo rfl) hfin
        rw [← List.tail_drop, hl, List.tail_cons]
      | true =>
        rcases finish_cases hfin with ⟨loc, hloc, heq⟩ | ⟨hnil, -⟩
        · rw [heq]
          exact hcand loc hloc
        · exact absurd hnil (hstop rfl)

theorem resolve_gaps {rows : List (Row A)} (h : ListRows rows) {start target index : ℕ}
    (hstart : target = 0 → start = 0) {query : QueryNth A}
    (hq : resolve .list rows start target index = some query) : Gap rows query.pos := by
  unfold resolve at hq
  refine loop_gaps h _ rfl ⟨?_, fun hcur => by cases hcur⟩ hq
  intro loc hloc
  dsimp only at hloc
  split at hloc
  · rename_i h0
    rw [List.mem_singleton.mp hloc, hstart h0]
    apply gap_of_insert
    rw [List.drop_zero]
    exact h.head
  · cases hloc

end InsertQuery

theorem queryInsertAt_gap {rows : List (Row A)} (h : ListRows rows) {index : ℕ}
    {query : QueryNth A} (hq : queryInsertAt .list rows index = some query) :
    Gap rows query.pos := by
  have hslow : InsertQuery.resolve .list rows 0 index 0 = some query → Gap rows query.pos :=
    InsertQuery.resolve_gaps h fun _ => rfl
  unfold queryInsertAt at hq
  rw [if_neg (show ¬ ObjType.list = .text by decide)] at hq
  by_cases h0 : index = 0
  · rw [if_pos h0] at hq
    exact hslow hq
  · rw [if_neg h0] at hq
    dsimp only at hq
    split at hq
    · rename_i query' hfast
      cases hq
      exact InsertQuery.resolve_gaps h (fun h0' => absurd h0' h0) hfast
    · exact hslow hq

omit [LinearOrder A] in
/-- A row put into a gap leaves the elements as they are. -/
theorem listRows_insert {rows : List (Row A)} (h : ListRows rows) {pos : ℕ} (hgap : Gap rows pos)
    {new : Row A} (hins : new.insert = true) (hkey : ∃ e, new.key = .seq e)
    (hm : new.action.isMark = false) (hinc : new.isInc = false) (hvis : new.visible = true) :
    ListRows (rows.take pos ++ new :: rows.drop pos) := by
  have hmem : ∀ r ∈ rows.take pos ++ new :: rows.drop pos, r ∈ rows ∨ r = new := by
    intro r hr
    rcases List.mem_append.mp hr with hr | hr
    · exact Or.inl (List.mem_of_mem_take hr)
    · rcases List.mem_cons.mp hr with rfl | hr
      · exact Or.inr rfl
      · exact Or.inl (List.mem_of_mem_drop hr)
  refine ⟨?_, ?_, ?_, ?_, ?_⟩
  · intro r hr
    cases htake : rows.take pos with
    | nil =>
      rw [htake] at hr
      cases hr
      exact hins
    | cons x l =>
      rw [htake] at hr
      cases hr
      apply h.head
      rw [← List.take_append_drop pos rows, htake]
      rfl
  · intro r hr
    rcases hmem r hr with hr | rfl
    · exact h.key r hr
    · exact hkey
  · intro r hr
    rcases hmem r hr with hr | rfl
    · exact h.unmarked r hr
    · exact hm
  · intro r hr hi
    rcases hmem r hr with hr | rfl
    · exact h.isInc r hr hi
    · rw [hinc] at hi
      cases hi
  · have hsplit : OpSet.TopLast (rows.take pos ++ rows.drop pos) := by
      rw [List.take_append_drop]
      exact h.topLast
    apply (OpSet.topLast_append _).mpr
    · exact ⟨hsplit.left, fun _ => ⟨hvis, hgap⟩, hsplit.right⟩
    · rintro r ⟨⟩
      exact hins

/-- An insertion into a list. -/
theorem listRows_doInsert {tx tx' : Tx A} {obj : ObjId A} (h : ListRows (tx.ops.rows obj))
    {index : ℕ} {action : OpType} (ha : action.isSetOrMake = true) {id : OpId A}
    (heq : tx.doInsert obj .list index action = (tx', .ok id)) :
    ListRows (tx'.ops.rows obj) ∧ ∃ pos elem, tx'.ops.rows obj =
      (tx.ops.rows obj).take pos ++ row tx.nextId ⟨obj, .seq elem, true, action, []⟩ ::
        (tx.ops.rows obj).drop pos := by
  unfold doInsert at heq
  split at heq
  · cases heq
  · rename_i query hq
    cases heq
    have hne : action ≠ .delete := by
      rintro rfl
      cases ha
    have hm : action.isMark = false := by
      cases action <;> first | rfl | cases ha
    have hinc : action.isIncrement = false := by
      cases action <;> first | rfl | cases ha
    have hrows := rows_splice tx query.pos ⟨obj, .seq query.elemid, true, action, []⟩
    rw [if_neg hne, List.append_assoc, List.singleton_append] at hrows
    refine ⟨?_, query.pos, query.elemid, hrows⟩
    rw [hrows]
    apply listRows_insert h (queryInsertAt_gap h hq)
    · rfl
    · exact ⟨query.elemid, rfl⟩
    · exact hm
    · exact hinc
    · show (!action.isIncrement) = true
      rw [hinc]
      rfl

end Tx

end AutomergeR
