import AutomergeR.Merges

/-! # An object is older than what is in it

So a reading of a document goes down only so far.
-/

namespace AutomergeR

variable {A : Type} [LinearOrder A]

namespace Tx

variable {tx tx' : Tx A} {obj : ObjId A}

/-- What is in an object has greater ids. -/
def RowsNested (obj : ObjId A) (_ : ObjType) (rows : List (Row A)) : Prop :=
  ∀ r ∈ rows, ∀ id ∈ obj, id.counter < r.id.counter

theorem rowsNested_splice (hm : tx.Made obj) {t : ObjType} (h : RowsNested obj t (tx.ops.rows obj))
    (pos : ℕ) (op : Op A) (ho : op.obj = obj) : RowsNested obj t ((tx.splice pos op).ops.rows obj) := by
  subst ho
  intro r hr id hid
  rw [rows_splice] at hr
  rcases List.mem_append.mp hr with hr | hr
  · rcases List.mem_append.mp hr with hr | hr
    · exact h r (List.mem_of_mem_take hr) id hid
    · split at hr
      · cases hr
      · rw [List.mem_singleton.mp hr]
        exact hm id hid
  · exact h r (List.mem_of_mem_drop hr) id hid

theorem rowsNested_addSuccs {t : ObjType} (h : RowsNested obj t (tx.ops.rows obj))
    (ids : List (OpId A)) (s : OpId A × Option ℤ) :
    RowsNested obj t ((tx.addSuccs obj ids s).ops.rows obj) := by
  intro r hr id hid
  unfold addSuccs at hr
  rw [rows_setRows] at hr
  obtain ⟨r', hr', rfl⟩ := mem_succRows hr
  have hold := h r' hr' id hid
  split
  · rwa [Row.addSucc_id]
  · exact hold

theorem rowsNested_insertChars {t : ObjType} (chars : List Char) : ∀ {tx : Tx A} (pos : ℕ)
    (elemid : ElemId A), tx.Made obj → RowsNested obj t (tx.ops.rows obj) →
      RowsNested obj t ((tx.insertChars obj pos elemid chars).ops.rows obj) := by
  induction chars with
  | nil => exact fun _ _ _ h => h
  | cons c chars ih =>
    intro tx pos elemid hm h
    unfold insertChars
    have hw : Writes obj tx (tx.splice pos ⟨obj, .seq elemid, true, .put (.str (String.ofList [c])), []⟩) :=
      writes_splice pos _ rfl hm
    exact ih _ _ (hm.mono hw.next) (rowsNested_splice hm h pos _ rfl)

theorem rowsNested_deleteChars {t : ObjType} (fuel : ℕ) : ∀ {tx : Tx A} (index deleted del : ℕ),
    tx.Made obj → RowsNested obj t (tx.ops.rows obj) →
      RowsNested obj t ((deleteChars obj fuel tx index deleted del).ops.rows obj) := by
  induction fuel with
  | zero => exact fun _ _ _ _ h => h
  | succ fuel ih =>
    intro tx index deleted del hm h
    unfold deleteChars
    split
    · exact h
    · dsimp only
      split
      · exact h
      · split
        · exact ih _ _ _ hm h
        · have hw := (writes_splice (OpSet.seekTextOpsByIndex (tx.ops.rows obj) index).endPos
            { obj := obj, key := .seq (Row.cursor ‹Row A›), insert := false, action := .delete,
              pred := (OpSet.seekTextOpsByIndex (tx.ops.rows obj) index).ops.map Row.id } rfl hm).trans
            (writes_addSuccs _ obj
              ((OpSet.seekTextOpsByIndex (tx.ops.rows obj) index).ops.map Row.id) (tx.nextId, none))
          exact ih _ _ _ (hm.mono hw.next)
            (rowsNested_addSuccs (rowsNested_splice hm h _ _ rfl) _ _)

theorem rowsNested_invariant : RowsInvariant (A := A) RowsNested where
  nil _ _ _ hr := absurd hr List.not_mem_nil
  mapOp {tx obj t} _ hm hrows prop action _ _ := by
    have hlocal := forall_rows_localOp (P := fun r => ∀ id ∈ obj, id.counter < r.id.counter)
      (fun r s h => by rwa [Row.addSucc_id]) (fun op _ => hm) hrows (.map prop)
      ⟨0, OpSet.visibleAtKey (tx.ops.rows obj) prop, keyEnd (tx.ops.rows obj) prop⟩ action
    exact hlocal
  listOp {tx obj t} _ hm hrows _ n action _ :=
    forall_rows_localListOp (P := fun r => ∀ id ∈ obj, id.counter < r.id.counter)
      (fun r s h => by rwa [Row.addSucc_id]) (fun op _ => hm) (fun r h => h) hrows t n action
  insert {tx obj t} _ hm hrows _ index action _ := by
    unfold doInsert
    split
    · exact hrows
    · exact rowsNested_splice hm hrows _ _ rfl
  splice {tx obj} _ hm hrows index del text := by
    unfold innerSplice
    split
    · exact rowsNested_deleteChars _ _ _ _ hm hrows
    · split
      · exact hrows
      · exact rowsNested_deleteChars _ _ _ _ (hm.mono (writes_insertChars _ _ _ hm).next)
          (rowsNested_insertChars _ _ _ hm hrows)

/-- A merge brings what is newer than its object. -/
theorem nested_merge {batch : List (OpId A × Op A)} (h : tx.Keeps RowsNested) (hb : tx.Fits batch)
    (heq : tx.merge batch = some tx') : tx'.Keeps RowsNested := by
  obtain ⟨hfresh, -, -⟩ := fresh_merge h.toFresh hb heq
  refine ⟨hfresh, fun obj t ht r hr id hid => ?_⟩
  obtain ⟨s, hs, rfl⟩ := Option.map_eq_some_iff.mp heq
  obtain ⟨hinfo, hrows⟩ := applyBatch_rows hs
  have ht : (tx.ops.withMade batch).objectType obj = some t := by
    rw [← ht]
    unfold OpSet.objectType
    rw [hinfo]
  have hbefore : ∀ r ∈ tx.ops.rows obj, id.counter < r.id.counter := by
    rcases objectType_withMade_cases ht with hsome | ⟨p, hp, rfl⟩
    · obtain ⟨t', ht'⟩ := Option.isSome_iff_exists.mp hsome
      exact fun r hr => h.kept obj t' ht' r hr id hid
    · rw [hb.empty p hp]
      exact fun r hr => absurd hr List.not_mem_nil
  have hr : r ∈ s.rows obj := hr
  rcases hrows obj with ⟨-, hwalk⟩ | ⟨-, hsame⟩
  · rcases List.mem_append.mp ((subperm_applyObj hwalk).subset (List.mem_map_of_mem hr)) with
      hr | hr
    · obtain ⟨r', hr', heq⟩ := List.mem_map.mp hr
      rw [← heq]
      exact hbefore r' hr'
    · obtain ⟨c, hc, heq⟩ := List.mem_map.mp hr
      rw [← heq]
      obtain ⟨hmem, hobj, -⟩ := mem_orderOps hc
      exact hb.older _ hmem id (hobj ▸ hid)
  · exact hbefore r (hsame ▸ hr)

theorem Reached.nested (h : tx.Reached) : tx.Keeps RowsNested := by
  induction h with
  | new actor => exact keeps_new rowsNested_invariant actor
  | call _ c ih => exact keeps_call rowsNested_invariant ih c
  | fork _ actor ih => exact keeps_fork ih actor
  | merge _ hb heq ih => exact nested_merge ih hb heq

end Tx

end AutomergeR
