import AutomergeR.Transaction

/-! # What a local operation can touch

Every call of a transaction writes to one object and makes at most objects that did not
exist before. `Writes` says so, and the calls are put together from three updates that
satisfy it.
-/

namespace AutomergeR

variable {A : Type} [LinearOrder A]

namespace Row

/-! ## A row and its new successor -/

@[simp] theorem addSucc_id (r : Row A) (s : OpId A × Option ℤ) : (r.addSucc s).id = r.id := by
  cases hc : r.action.isCounter <;> cases hs : s.2.isSome <;> simp [addSucc, hc, hs]

@[simp] theorem addSucc_key (r : Row A) (s : OpId A × Option ℤ) : (r.addSucc s).key = r.key := by
  cases hc : r.action.isCounter <;> cases hs : s.2.isSome <;> simp [addSucc, hc, hs]

@[simp] theorem addSucc_insert (r : Row A) (s : OpId A × Option ℤ) :
    (r.addSucc s).insert = r.insert := by
  cases hc : r.action.isCounter <;> cases hs : s.2.isSome <;> simp [addSucc, hc, hs]

@[simp] theorem addSucc_action (r : Row A) (s : OpId A × Option ℤ) :
    (r.addSucc s).action = r.action := by
  cases hc : r.action.isCounter <;> cases hs : s.2.isSome <;> simp [addSucc, hc, hs]

theorem addSucc_visible (r : Row A) (s : OpId A × Option ℤ) :
    (r.addSucc s).visible = (r.visible && r.action.isCounter && s.2.isSome) := by
  cases hc : r.action.isCounter <;> cases hs : s.2.isSome <;> simp [addSucc, hc, hs]

/-- A successor that is no increment hides the row. -/
theorem addSucc_none_visible (r : Row A) (id : OpId A) : (r.addSucc (id, none)).visible = false := by
  simp [addSucc_visible]

end Row

namespace Tx

/-- An object the document may know: its id is not yet to be given out. -/
def Made (tx : Tx A) (obj : ObjId A) : Prop := ∀ id ∈ obj, id.counter < tx.nextId.counter

/-- Ids are in use once, and those the transaction is still to give out not at all. -/
structure Fresh (tx : Tx A) : Prop where
  ids : ∀ obj, ∀ r ∈ tx.ops.rows obj, r.id.counter < tx.nextId.counter
  nodup : ∀ obj, ((tx.ops.rows obj).map Row.id).Nodup
  rows : ∀ obj, ¬ tx.Made obj → tx.ops.rows obj = []
  objects : ∀ p ∈ tx.ops.objInfo, p.1.counter < tx.nextId.counter

omit [LinearOrder A] in
theorem fresh_new (actor : A) : (Tx.new actor).Fresh where
  ids _ _ hr := absurd hr List.not_mem_nil
  nodup _ := List.nodup_nil
  rows _ _ := rfl
  objects _ hp := absurd hp List.not_mem_nil

/-- From `tx` to `tx'` only `obj` and new objects were written to. -/
structure Writes (obj : ObjId A) (tx tx' : Tx A) : Prop where
  actor : tx'.actor = tx.actor
  next : tx.nextId.counter ≤ tx'.nextId.counter
  rows : ∀ o, o ≠ obj → tx.Made o → tx'.ops.rows o = tx.ops.rows o
  objectType : ∀ o, tx.Made o → tx'.ops.objectType o = tx.ops.objectType o
  fresh : tx.Fresh → tx'.Fresh

omit [LinearOrder A] in
@[simp] theorem made_none (tx : Tx A) : tx.Made none := by
  intro id hid
  cases hid

omit [LinearOrder A] in
theorem made_some {tx : Tx A} {id : OpId A} :
    tx.Made (some id) ↔ id.counter < tx.nextId.counter := by
  simp [Made]

omit [LinearOrder A] in
theorem Made.mono {tx tx' : Tx A} {obj : ObjId A} (h : tx.Made obj)
    (hle : tx.nextId.counter ≤ tx'.nextId.counter) : tx'.Made obj :=
  fun id hid => lt_of_lt_of_le (h id hid) hle

/-- An object with a type is known. -/
theorem Fresh.made {tx : Tx A} (h : tx.Fresh) {obj : ObjId A} {t : ObjType}
    (ht : tx.ops.objectType obj = some t) : tx.Made obj := by
  cases obj with
  | none => exact made_none tx
  | some id =>
    rw [made_some]
    have hmem : (id, t) ∈ tx.ops.objInfo := by
      obtain ⟨l, l', hl, _⟩ := List.lookup_eq_some_iff.mp (show tx.ops.objInfo.lookup id = some t from ht)
      rw [hl]
      exact List.mem_append_right l List.mem_cons_self
    exact h.objects _ hmem

namespace Writes

variable {obj : ObjId A} {tx tx' tx'' : Tx A}

theorem refl (obj : ObjId A) (tx : Tx A) : Writes obj tx tx :=
  ⟨rfl, le_refl _, fun _ _ _ => rfl, fun _ _ => rfl, id⟩

theorem trans (h : Writes obj tx tx') (h' : Writes obj tx' tx'') : Writes obj tx tx'' where
  actor := h'.actor.trans h.actor
  next := h.next.trans h'.next
  rows o ho hm := (h'.rows o ho (hm.mono h.next)).trans (h.rows o ho hm)
  objectType o hm := (h'.objectType o (hm.mono h.next)).trans (h.objectType o hm)
  fresh hf := h'.fresh (h.fresh hf)

/-- What is written to an object made on the way does not count. -/
theorem nested {id : ObjId A} (h : Writes obj tx tx') (h' : Writes id tx' tx'')
    (hid : ¬ tx.Made id) : Writes obj tx tx'' where
  actor := h'.actor.trans h.actor
  next := h.next.trans h'.next
  rows o ho hm := by
    have hne : o ≠ id := by
      rintro rfl
      exact hid hm
    exact (h'.rows o hne (hm.mono h.next)).trans (h.rows o ho hm)
  objectType o hm := (h'.objectType o (hm.mono h.next)).trans (h.objectType o hm)
  fresh hf := h'.fresh (h.fresh hf)

end Writes

/-! ## The three updates -/

@[simp] theorem nextId_setRows (tx : Tx A) (obj : ObjId A) (rows : List (Row A)) :
    (tx.setRows obj rows).nextId = tx.nextId := rfl

@[simp] theorem objectType_setRows (tx : Tx A) (obj o : ObjId A) (rows : List (Row A)) :
    (tx.setRows obj rows).ops.objectType o = tx.ops.objectType o := by
  cases o <;> rfl

@[simp] theorem rows_setRows (tx : Tx A) (obj : ObjId A) (rows : List (Row A)) :
    (tx.setRows obj rows).ops.rows obj = rows := Function.update_self ..

theorem rows_setRows_ne (tx : Tx A) {obj o : ObjId A} (rows : List (Row A)) (h : o ≠ obj) :
    (tx.setRows obj rows).ops.rows o = tx.ops.rows o := Function.update_of_ne h ..

/-- Rows may change in place. -/
theorem writes_setRows {tx : Tx A} {obj : ObjId A} (f : Row A → Row A)
    (hf : ∀ r, (f r).id = r.id) :
    Writes obj tx (tx.setRows obj ((tx.ops.rows obj).map f)) where
  actor := rfl
  next := le_refl _
  rows o ho _ := rows_setRows_ne tx _ ho
  objectType o _ := objectType_setRows ..
  fresh h := by
    refine ⟨fun o r hr => ?_, fun o => ?_, fun o ho => ?_, h.objects⟩
    · by_cases hob : o = obj
      · subst hob
        rw [rows_setRows, List.mem_map] at hr
        obtain ⟨r', hr', rfl⟩ := hr
        rw [hf]
        exact h.ids o r' hr'
      · rw [rows_setRows_ne tx _ hob] at hr
        exact h.ids o r hr
    · by_cases hob : o = obj
      · subst hob
        have hid : Row.id ∘ f = Row.id := funext hf
        rw [rows_setRows, List.map_map, hid]
        exact h.nodup o
      · rw [rows_setRows_ne tx _ hob]
        exact h.nodup o
    · have hno : ¬ tx.Made o := ho
      by_cases hob : o = obj
      · subst hob
        rw [rows_setRows, h.rows o hno, List.map_nil]
      · rw [rows_setRows_ne tx _ hob]
        exact h.rows o hno

theorem counter_nextId_splice (tx : Tx A) (pos : ℕ) (op : Op A) :
    (tx.splice pos op).nextId.counter = tx.nextId.counter + 1 := by
  show (tx.splice pos op).startOp + (tx.splice pos op).pending.length = _
  simp [splice, nextId, Nat.add_assoc]

theorem rows_splice (tx : Tx A) (pos : ℕ) (op : Op A) :
    (tx.splice pos op).ops.rows op.obj =
      (tx.ops.rows op.obj).take pos ++ (if op.action = .delete then [] else [row tx.nextId op]) ++
        (tx.ops.rows op.obj).drop pos := Function.update_self ..

theorem rows_splice_ne (tx : Tx A) (pos : ℕ) (op : Op A) {o : ObjId A} (h : o ≠ op.obj) :
    (tx.splice pos op).ops.rows o = tx.ops.rows o := Function.update_of_ne h ..

theorem objectType_splice (tx : Tx A) (pos : ℕ) (op : Op A) {o : ObjId A}
    (h : o ≠ some tx.nextId) : (tx.splice pos op).ops.objectType o = tx.ops.objectType o := by
  cases o with
  | none => rfl
  | some id =>
    have hne : id ≠ tx.nextId := fun he => h (congrArg some he)
    show List.lookup id (tx.splice pos op).ops.objInfo = List.lookup id tx.ops.objInfo
    cases ht : op.action.objType? with
    | none => simp [splice, ht]
    | some t =>
      have hbeq : (id == tx.nextId) = false := beq_eq_false_iff_ne.mpr hne
      simp [splice, ht, List.lookup_cons, hbeq]

/-- The object a `make` operation makes. -/
theorem objectType_splice_make (tx : Tx A) (pos : ℕ) (op : Op A) {t : ObjType}
    (h : op.action = .make t) : (tx.splice pos op).ops.objectType (some tx.nextId) = some t := by
  show List.lookup tx.nextId (tx.splice pos op).ops.objInfo = some t
  simp [splice, h, OpType.objType?]

omit [LinearOrder A] in
theorem not_made_nextId (tx : Tx A) : ¬ tx.Made (some tx.nextId) := by
  rw [made_some]
  exact lt_irrefl _

theorem nodup_splice {tx : Tx A} (h : tx.Fresh) (pos : ℕ) (op : Op A) :
    (((tx.splice pos op).ops.rows op.obj).map Row.id).Nodup := by
  have hnd := h.nodup op.obj
  rw [rows_splice]
  split
  · rw [List.append_nil, List.take_append_drop]
    exact hnd
  · have hnew : tx.nextId ∉ (tx.ops.rows op.obj).map Row.id := by
      intro hmem
      obtain ⟨r, hr, hid⟩ := List.mem_map.mp hmem
      have hlt := h.ids op.obj r hr
      rw [hid] at hlt
      exact lt_irrefl _ hlt
    rw [List.append_assoc, List.map_append, List.map_append, List.map_singleton]
    rw [← List.take_append_drop pos (tx.ops.rows op.obj), List.map_append] at hnd hnew
    apply List.Perm.nodup (List.perm_middle.symm) 
    exact List.nodup_cons.mpr ⟨hnew, hnd⟩

theorem writes_splice_obj {tx : Tx A} (pos : ℕ) (op : Op A) (hm : tx.Made op.obj) :
    Writes op.obj tx (tx.splice pos op) where
  actor := rfl
  next := by
    rw [counter_nextId_splice]
    exact Nat.le_succ _
  rows o ho _ := rows_splice_ne tx pos op ho
  objectType o ho := objectType_splice tx pos op (fun he => not_made_nextId tx (he ▸ ho))
  fresh h := by
    have hlt : ∀ n, n < tx.nextId.counter → n < (tx.splice pos op).nextId.counter := by
      intro n hn
      rw [counter_nextId_splice]
      exact Nat.lt_succ_of_lt hn
    refine ⟨fun o r hr => ?_, fun o => ?_, fun o ho => ?_, fun p hp => ?_⟩
    · by_cases hob : o = op.obj
      · subst hob
        rw [rows_splice] at hr
        rcases List.mem_append.mp hr with hr | hr
        · rcases List.mem_append.mp hr with hr | hr
          · exact hlt _ (h.ids _ r (List.mem_of_mem_take hr))
          · split at hr
            · cases hr
            · rw [List.mem_singleton.mp hr, counter_nextId_splice]
              exact Nat.lt_succ_self _
        · exact hlt _ (h.ids _ r (List.mem_of_mem_drop hr))
      · rw [rows_splice_ne tx pos op hob] at hr
        exact hlt _ (h.ids o r hr)
    · by_cases hob : o = op.obj
      · subst hob
        exact nodup_splice h pos op
      · rw [rows_splice_ne tx pos op hob]
        exact h.nodup o
    · have hno : ¬ tx.Made o := fun hmade => ho (hmade.mono (by
        rw [counter_nextId_splice]
        exact Nat.le_succ _))
      have hob : o ≠ op.obj := by
        rintro rfl
        exact hno hm
      rw [rows_splice_ne tx pos op hob]
      exact h.rows o hno
    · cases ht : op.action.objType? with
      | none =>
        have hp' : p ∈ tx.ops.objInfo := by simpa [splice, ht] using hp
        exact hlt _ (h.objects p hp')
      | some t =>
        have hp' : p = (tx.nextId, t) ∨ p ∈ tx.ops.objInfo := by simpa [splice, ht] using hp
        rcases hp' with rfl | hp'
        · rw [counter_nextId_splice]
          exact Nat.lt_succ_self _
        · exact hlt _ (h.objects p hp')

theorem writes_splice {tx : Tx A} {obj : ObjId A} (pos : ℕ) (op : Op A) (ho : op.obj = obj)
    (hm : tx.Made obj) : Writes obj tx (tx.splice pos op) := by
  subst ho
  exact writes_splice_obj pos op hm

theorem writes_addSuccs (tx : Tx A) (obj : ObjId A) (ids : List (OpId A)) (s : OpId A × Option ℤ) :
    Writes obj tx (tx.addSuccs obj ids s) := by
  apply writes_setRows
  intro r
  split
  · exact r.addSucc_id s
  · rfl

theorem writes_expose (tx : Tx A) (obj : ObjId A) (id : OpId A) :
    Writes obj tx (tx.expose obj id) := by
  apply writes_setRows
  intro r
  split <;> rfl

/-! ## The calls -/

theorem writes_localOp {tx : Tx A} {obj : ObjId A} (key : Key A) (found : OpSet.OpsFound A)
    (action : OpType) (hm : tx.Made obj) : Writes obj tx (tx.localOp obj key found action).1 := by
  unfold localOp
  split
  · exact Writes.refl obj tx
  · split
    · exact Writes.refl obj tx
    · apply Writes.trans ?_ (writes_addSuccs ..)
      exact writes_splice _ _ rfl hm

theorem writes_localMapOp {tx : Tx A} {obj : ObjId A} (prop : String) (action : OpType)
    (hm : tx.Made obj) : Writes obj tx (tx.localMapOp obj prop action).1 :=
  writes_localOp _ _ action hm

theorem writes_exposeCounter (tx : Tx A) (obj : ObjId A) (action : OpType) (ops : List (Row A)) :
    Writes obj tx (tx.exposeCounter obj action ops) := by
  unfold exposeCounter
  split
  · split
    · split
      · exact writes_expose ..
      · exact Writes.refl obj tx
    · exact Writes.refl obj tx
  · exact Writes.refl obj tx

theorem writes_localListOp {tx : Tx A} {obj : ObjId A} (objType : ObjType) (index : ℕ)
    (action : OpType) (hm : tx.Made obj) :
    Writes obj tx (tx.localListOp obj objType index action).1 := by
  unfold localListOp
  dsimp only
  split
  · exact Writes.refl obj tx
  · rename_i first _
    have hw := writes_localOp (.seq first.cursor)
      (OpSet.seekOpsByIndex objType (tx.ops.rows obj) index) action hm
    split
    · rename_i tx' id ops heq
      rw [heq] at hw
      exact hw.trans (writes_exposeCounter ..)
    · rename_i tx' e heq
      rw [heq] at hw
      exact hw

theorem writes_localObjOp {tx : Tx A} {obj : ObjId A} (objType : ObjType) (prop : ObjProp)
    (action : OpType) (hm : tx.Made obj) :
    Writes obj tx (tx.localObjOp obj objType prop action).1 := by
  cases prop with
  | map p => exact writes_localMapOp p action hm
  | seq i =>
    unfold localObjOp
    dsimp only
    split
    · exact writes_localListOp objType i action hm
    · exact Writes.refl obj tx

theorem writes_put {tx : Tx A} (h : tx.Fresh) (obj : ObjId A) (prop : ObjProp) (v : ScalarValue) :
    Writes obj tx (tx.put obj prop v).1 := by
  unfold put objMeta
  split
  · exact Writes.refl obj tx
  · exact writes_localObjOp _ _ _ (h.made ‹_›)
  · exact writes_localObjOp _ _ _ (h.made ‹_›)
  · exact writes_localObjOp _ _ _ (h.made ‹_›)
  · exact Writes.refl obj tx

theorem writes_putObject {tx : Tx A} (h : tx.Fresh) (obj : ObjId A) (prop : ObjProp) (t : ObjType) :
    Writes obj tx (tx.putObject obj prop t).1 := by
  unfold putObject objMeta
  split
  · exact Writes.refl obj tx
  · exact writes_localObjOp _ _ _ (h.made ‹_›)
  · exact writes_localObjOp _ _ _ (h.made ‹_›)
  · exact Writes.refl obj tx

theorem writes_increment {tx : Tx A} (h : tx.Fresh) (obj : ObjId A) (prop : ObjProp) (n : ℤ) :
    Writes obj tx (tx.increment obj prop n).1 := by
  unfold increment objMeta
  split
  · exact Writes.refl obj tx
  · exact writes_localObjOp _ _ _ (h.made ‹_›)

theorem writes_doInsert {tx : Tx A} {obj : ObjId A} (objType : ObjType) (index : ℕ)
    (action : OpType) (hm : tx.Made obj) :
    Writes obj tx (tx.doInsert obj objType index action).1 := by
  unfold doInsert
  split
  · exact Writes.refl obj tx
  · exact writes_splice _ _ rfl hm

theorem writes_insert {tx : Tx A} (h : tx.Fresh) (obj : ObjId A) (index : ℕ) (action : OpType) :
    Writes obj tx (tx.insert obj index action).1 := by
  unfold insert objMeta
  split
  · exact Writes.refl obj tx
  · split
    · exact writes_doInsert _ _ _ (h.made ‹_›)
    · exact Writes.refl obj tx

theorem writes_insertChars {obj : ObjId A} (chars : List Char) :
    ∀ {tx : Tx A} (pos : ℕ) (elemid : ElemId A), tx.Made obj →
      Writes obj tx (tx.insertChars obj pos elemid chars) := by
  induction chars with
  | nil => exact fun _ _ _ => Writes.refl obj _
  | cons c chars ih =>
    intro tx pos elemid hm
    have hw : Writes obj tx (tx.splice pos _) := writes_splice pos
      { obj := obj, key := .seq elemid, insert := true, action := .put (.str (String.ofList [c])),
        pred := [] } rfl hm
    exact hw.trans (ih (pos + 1) _ (hm.mono hw.next))

theorem writes_deleteChars {obj : ObjId A} (fuel : ℕ) :
    ∀ {tx : Tx A} (index deleted del : ℕ), tx.Made obj →
      Writes obj tx (deleteChars obj fuel tx index deleted del) := by
  induction fuel with
  | zero => exact fun _ _ _ _ => Writes.refl obj _
  | succ fuel ih =>
    intro tx index deleted del hm
    unfold deleteChars
    split
    · exact Writes.refl obj tx
    · dsimp only
      split
      · exact Writes.refl obj tx
      · split
        · exact ih _ _ _ hm
        · have hw := (writes_splice (OpSet.seekTextOpsByIndex (tx.ops.rows obj) index).endPos
            { obj := obj, key := .seq (Row.cursor ‹Row A›), insert := false, action := .delete,
              pred := (OpSet.seekTextOpsByIndex (tx.ops.rows obj) index).ops.map Row.id } rfl hm).trans
            (writes_addSuccs _ obj
              ((OpSet.seekTextOpsByIndex (tx.ops.rows obj) index).ops.map Row.id) (tx.nextId, none))
          exact hw.trans (ih _ _ _ (hm.mono hw.next))

theorem writes_innerSplice {tx : Tx A} {obj : ObjId A} (index del : ℕ) (text : String)
    (hm : tx.Made obj) : Writes obj tx (tx.innerSplice obj index del text).1 := by
  unfold innerSplice
  split
  · exact writes_deleteChars _ _ _ _ hm
  · split
    · exact Writes.refl obj tx
    · rename_i c chars _ _ query _
      have hw := writes_insertChars (c :: chars) query.pos query.elemid hm
      exact hw.trans (writes_deleteChars _ _ _ _ (hm.mono hw.next))

theorem writes_spliceText {tx : Tx A} (h : tx.Fresh) (obj : ObjId A) (index del : ℕ)
    (text : String) : Writes obj tx (tx.spliceText obj index del text).1 := by
  unfold spliceText objMeta
  split
  · exact Writes.refl obj tx
  · exact writes_innerSplice _ _ _ (h.made ‹_›)
  · exact Writes.refl obj tx

theorem writes_delete {tx : Tx A} (h : tx.Fresh) (obj : ObjId A) (prop : ObjProp) :
    Writes obj tx (tx.delete obj prop).1 := by
  unfold delete objMeta
  split
  · exact Writes.refl obj tx
  · exact writes_innerSplice _ _ _ (h.made ‹_›)
  · exact Writes.refl obj tx
  · exact writes_localObjOp _ _ _ (h.made ‹_›)

/-! ## Errors

All calls but `mark` look before they write. -/

/-- A call that fails has not touched the transaction. -/
def Clean {E α : Type} (tx : Tx A) (reply : Reply A E α) : Prop :=
  ∀ e, reply.2 = .error e → reply.1 = tx

omit [LinearOrder A] in
theorem Clean.self {E α : Type} (tx : Tx A) (result : Except E α) : Clean tx (tx, result) :=
  fun _ _ => rfl

omit [LinearOrder A] in
theorem Clean.ok {E α : Type} (tx tx' : Tx A) (a : α) : Clean tx ((tx', .ok a) : Reply A E α) := by
  intro e he
  cases he

theorem clean_localOp (tx : Tx A) (obj : ObjId A) (key : Key A) (found : OpSet.OpsFound A)
    (action : OpType) : Clean tx (tx.localOp obj key found action) := by
  unfold localOp
  split
  · exact Clean.self tx _
  · split
    · exact Clean.self tx _
    · exact Clean.ok tx _ _

theorem clean_localMapOp (tx : Tx A) (obj : ObjId A) (prop : String) (action : OpType) :
    Clean tx (tx.localMapOp obj prop action) := by
  have hc := clean_localOp tx obj (.map prop)
    ⟨0, OpSet.visibleAtKey (tx.ops.rows obj) prop, keyEnd (tx.ops.rows obj) prop⟩ action
  intro e he
  unfold localMapOp at he ⊢
  dsimp only at he ⊢
  generalize tx.localOp obj (.map prop) _ action = reply at hc he ⊢
  obtain ⟨tx', result⟩ := reply
  cases result with
  | ok a => cases he
  | error e => exact hc e rfl

theorem clean_localListOp (tx : Tx A) (obj : ObjId A) (objType : ObjType) (index : ℕ)
    (action : OpType) : Clean tx (tx.localListOp obj objType index action) := by
  unfold localListOp
  dsimp only
  split
  · exact Clean.self tx _
  · rename_i first _
    have hc := clean_localOp tx obj (.seq first.cursor)
      (OpSet.seekOpsByIndex objType (tx.ops.rows obj) index) action
    split
    · exact Clean.ok tx _ _
    · rename_i heq
      rw [heq] at hc
      intro e he
      exact hc _ rfl

theorem clean_localObjOp (tx : Tx A) (obj : ObjId A) (objType : ObjType) (prop : ObjProp)
    (action : OpType) : Clean tx (tx.localObjOp obj objType prop action) := by
  cases prop with
  | map p => exact clean_localMapOp tx obj p action
  | seq i =>
    unfold localObjOp
    dsimp only
    split
    · exact clean_localListOp tx obj objType i action
    · exact Clean.self tx _

theorem clean_put (tx : Tx A) (obj : ObjId A) (prop : ObjProp) (v : ScalarValue) :
    Clean tx (tx.put obj prop v) := by
  unfold put
  split
  · exact Clean.self tx _
  · exact clean_localObjOp _ _ _ _ _
  · exact clean_localObjOp _ _ _ _ _
  · exact clean_localObjOp _ _ _ _ _
  · exact Clean.self tx _

theorem clean_putObject (tx : Tx A) (obj : ObjId A) (prop : ObjProp) (t : ObjType) :
    Clean tx (tx.putObject obj prop t) := by
  unfold putObject
  split
  · exact Clean.self tx _
  · exact clean_localObjOp _ _ _ _ _
  · exact clean_localObjOp _ _ _ _ _
  · exact Clean.self tx _

theorem clean_doInsert (tx : Tx A) (obj : ObjId A) (objType : ObjType) (index : ℕ)
    (action : OpType) : Clean tx (tx.doInsert obj objType index action) := by
  unfold doInsert
  split
  · exact Clean.self tx _
  · exact Clean.ok tx _ _

theorem clean_insert (tx : Tx A) (obj : ObjId A) (index : ℕ) (action : OpType) :
    Clean tx (tx.insert obj index action) := by
  unfold insert
  split
  · exact Clean.self tx _
  · split
    · exact clean_doInsert tx obj _ index action
    · exact Clean.self tx _

end Tx

end AutomergeR
