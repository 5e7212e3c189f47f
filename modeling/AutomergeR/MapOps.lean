import AutomergeR.LocalOps
import Mathlib.Data.List.Nodup

/-! # A map after a local operation

The operations visible at a key after a put, an object put or a deletion, and at the
other keys.
-/

namespace AutomergeR

variable {A : Type} [LinearOrder A]

namespace Tx

/-- Rows with `new` put in at `pos`, those in `pred` having got the successor `s`. -/
def overwrite (rows : List (Row A)) (pos : ℕ) (new : List (Row A)) (pred : List (OpId A))
    (s : OpId A × Option ℤ) : List (Row A) :=
  succRows (rows.take pos ++ new ++ rows.drop pos) pred s

/-- The rows after a local operation. -/
theorem rows_localOp (tx : Tx A) (obj : ObjId A) (key : Key A) (found : OpSet.OpsFound A)
    {action action' : OpType} {ops : List (Row A)}
    (hr : resolveAction found.ops action = some (ops, action'))
    (ha : action'.isIncrement = false) :
    ∃ tx', tx.localOp obj key found action = (tx', .ok (some tx.nextId, ops)) ∧
      tx'.ops.rows obj = overwrite (tx.ops.rows obj) found.endPos
        (if action' = .delete then []
          else [row tx.nextId ⟨obj, key, false, action', ops.map Row.id⟩])
        (ops.map Row.id) (tx.nextId, none) := by
  have hnone : action'.getIncrementValue = none := by
    cases action' <;> first | rfl | cases ha
  unfold localOp
  simp only [hr, ha, Bool.false_and, Bool.false_eq_true, if_false, hnone]
  refine ⟨_, rfl, ?_⟩
  unfold addSuccs overwrite
  rw [rows_setRows]
  exact congrArg _ (rows_splice tx found.endPos ⟨obj, key, false, action', ops.map Row.id⟩)

/-! ## What is visible at a key -/

theorem visibleAtKey_append (l l' : List (Row A)) (prop : String) :
    OpSet.visibleAtKey (l ++ l') prop = OpSet.visibleAtKey l prop ++ OpSet.visibleAtKey l' prop :=
  List.filter_append ..

theorem visibleAtKey_hide (l : List (Row A)) (pred : List (OpId A)) (id : OpId A)
    (prop : String) :
    OpSet.visibleAtKey (l.map fun r => if r.id ∈ pred then r.addSucc (id, none) else r) prop =
      (OpSet.visibleAtKey l prop).filter (·.id ∉ pred) := by
  induction l with
  | nil => rfl
  | cons r l ih =>
    unfold OpSet.visibleAtKey at ih ⊢
    rw [List.map_cons, List.filter_cons, List.filter_cons, ih]
    by_cases hp : r.id ∈ pred
    · simp only [hp, if_true, Row.addSucc_none_visible, Bool.false_eq_true, false_and,
        decide_false, if_false]
      split_ifs
      · rw [List.filter_cons_of_neg (by simpa using hp)]
      · rfl
    · simp only [hp, if_false]
      split_ifs
      · rw [List.filter_cons_of_pos (by simpa using hp)]
      · rfl

theorem visibleAtKey_overwrite (rows : List (Row A)) (pos : ℕ) (new : List (Row A))
    (pred : List (OpId A)) (id : OpId A) (prop : String) :
    OpSet.visibleAtKey (overwrite rows pos new pred (id, none)) prop =
      (OpSet.visibleAtKey (rows.take pos) prop ++ OpSet.visibleAtKey new prop ++
        OpSet.visibleAtKey (rows.drop pos) prop).filter (·.id ∉ pred) := by
  unfold overwrite
  rw [visibleAtKey_hide, visibleAtKey_append, visibleAtKey_append]

/-- An overwriting operation leaves nothing but itself. -/
theorem visibleAtKey_overwrite_all {rows : List (Row A)} {pos : ℕ} {new : List (Row A)}
    {id : OpId A} {prop : String} (hnew : ∀ r ∈ new, r.visible = true ∧ r.key = .map prop)
    (hid : ∀ r ∈ new, r.id ∉ (OpSet.visibleAtKey rows prop).map Row.id) :
    OpSet.visibleAtKey
      (overwrite rows pos new ((OpSet.visibleAtKey rows prop).map Row.id) (id, none)) prop = new := by
  have hold : ∀ l : List (Row A), (∀ r ∈ l, r ∈ rows) →
      (OpSet.visibleAtKey l prop).filter
        (fun r => r.id ∉ (OpSet.visibleAtKey rows prop).map Row.id) = [] := by
    intro l hl
    rw [List.filter_eq_nil_iff]
    intro r hr
    obtain ⟨hmem, hp⟩ := List.mem_filter.mp hr
    have : r ∈ OpSet.visibleAtKey rows prop := List.mem_filter.mpr ⟨hl r hmem, hp⟩
    simpa using ⟨r, this, rfl⟩
  have hvis : OpSet.visibleAtKey new prop = new := by
    apply List.filter_eq_self.mpr
    intro r hr
    simpa using hnew r hr
  rw [visibleAtKey_overwrite, List.filter_append, List.filter_append, hvis,
    hold _ (fun r hr => List.mem_of_mem_take hr), hold _ (fun r hr => List.mem_of_mem_drop hr),
    List.nil_append, List.append_nil]
  apply List.filter_eq_self.mpr
  intro r hr
  simpa using hid r hr

/-- An operation on one key leaves the others alone. -/
theorem visibleAtKey_overwrite_ne {rows : List (Row A)} {pos : ℕ} {new : List (Row A)}
    {pred : List (OpId A)} {id : OpId A} {prop prop' : String} (hne : prop' ≠ prop)
    (hnd : (rows.map Row.id).Nodup) (hnew : ∀ r ∈ new, r.key = .map prop)
    (hpred : ∀ i ∈ pred, ∃ r ∈ rows, r.id = i ∧ r.key = .map prop) :
    OpSet.visibleAtKey (overwrite rows pos new pred (id, none)) prop' =
      OpSet.visibleAtKey rows prop' := by
  have hempty : OpSet.visibleAtKey new prop' = [] := by
    apply List.filter_eq_nil_iff.mpr
    intro r hr
    rw [hnew r hr]
    simpa using fun _ he => hne he.symm
  rw [visibleAtKey_overwrite, hempty, List.append_nil, ← visibleAtKey_append,
    List.take_append_drop]
  apply List.filter_eq_self.mpr
  intro r hr
  obtain ⟨hmem, hp⟩ := List.mem_filter.mp hr
  simp only [decide_eq_true_eq] at hp ⊢
  intro hin
  obtain ⟨r', hr', hid, hkey⟩ := hpred _ hin
  have : r' = r := List.inj_on_of_nodup_map hnd hr' hmem hid
  subst this
  rw [hp.2] at hkey
  exact hne (Key.map.inj hkey)

/-! ## Putting and deleting at a key -/

/-- The row holds a scalar that a put of `v` takes for the same. -/
def Holds (r : Row A) (v : ScalarValue) : Prop :=
  r.action.isSetOrMake = true ∧ r.action.objType? = none ∧ r.fixedValue.eq v = true

/-- The value a put or an object put at a key leads to: its own, or an equal one that
was there before. -/
inductive Leads (tx : Tx A) (rows : List (Row A)) (prop : String) : OpType → Row A → Prop where
  | new {action : OpType} {r : Row A} (hid : r.id = tx.nextId) (ha : r.action = action)
      (hs : r.succ = [])
      (hnot : ∀ v last, action = .put v → (OpSet.visibleAtKey rows prop).getLast? = some last →
        ¬ Holds last v) : Leads tx rows prop action r
  | kept {v : ScalarValue} {r : Row A} (hr : (OpSet.visibleAtKey rows prop).getLast? = some r)
      (hv : Holds r v) : Leads tx rows prop (.put v) r

theorem mem_of_mem_visibleAtKey {rows : List (Row A)} {prop : String} {r : Row A}
    (h : r ∈ OpSet.visibleAtKey rows prop) : r ∈ rows ∧ r.key = .map prop := by
  obtain ⟨hm, hp⟩ := List.mem_filter.mp h
  simp only [decide_eq_true_eq] at hp
  exact ⟨hm, hp.2⟩

theorem ids_at_key {rows : List (Row A)} {prop : String} {ops : List (Row A)}
    (hops : ∀ r ∈ ops, r ∈ OpSet.visibleAtKey rows prop) :
    ∀ i ∈ ops.map Row.id, ∃ r ∈ rows, r.id = i ∧ r.key = .map prop := by
  intro i hi
  obtain ⟨r, hr, rfl⟩ := List.mem_map.mp hi
  obtain ⟨hm, hk⟩ := mem_of_mem_visibleAtKey (hops r hr)
  exact ⟨r, hm, rfl, hk⟩

/-- When all but the last value are hidden, the last one remains. -/
theorem visibleAtKey_dropLast {rows : List (Row A)} {pos : ℕ} {id : OpId A} {prop : String}
    (hnd : (rows.map Row.id).Nodup) {last : Row A}
    (hlast : (OpSet.visibleAtKey rows prop).getLast? = some last) :
    OpSet.visibleAtKey (overwrite rows pos []
      ((OpSet.visibleAtKey rows prop).dropLast.map Row.id) (id, none)) prop = [last] := by
  have hvis := List.dropLast_append_getLast? _ hlast
  have hsub : ((OpSet.visibleAtKey rows prop).map Row.id).Nodup :=
    hnd.sublist (List.filter_sublist.map Row.id)
  rw [← hvis, List.map_append, List.map_singleton] at hsub
  have hnew : OpSet.visibleAtKey ([] : List (Row A)) prop = [] := rfl
  rw [visibleAtKey_overwrite, hnew, List.append_nil, ← visibleAtKey_append,
    List.take_append_drop, ← hvis, List.dropLast_concat, List.filter_append]
  have hdrop : (OpSet.visibleAtKey rows prop).dropLast.filter
      (fun r => r.id ∉ (OpSet.visibleAtKey rows prop).dropLast.map Row.id) = [] := by
    rw [List.filter_eq_nil_iff]
    intro r hr
    simp only [decide_eq_true_eq, not_not]
    exact List.mem_map_of_mem hr
  have hone : [last].filter
      (fun r => r.id ∉ (OpSet.visibleAtKey rows prop).dropLast.map Row.id) = [last] := by
    apply List.filter_eq_self.mpr
    intro r hr
    rw [List.mem_singleton.mp hr]
    have hdisj := List.disjoint_of_nodup_append hsub
    simp only [decide_eq_true_eq]
    exact fun hin => hdisj hin List.mem_cons_self
  rw [hdrop, hone, List.nil_append]

/-- A put or an object put at a key: one value remains there. -/
theorem localMapOp_set {tx : Tx A} (h : tx.Fresh) (obj : ObjId A) (prop : String)
    {action : OpType} (ha : action.isSetOrMake = true) :
    ∃ tx' id, tx.localMapOp obj prop action = (tx', .ok id) ∧
      (∀ prop', prop' ≠ prop → OpSet.visibleAtKey (tx'.ops.rows obj) prop' =
        OpSet.visibleAtKey (tx.ops.rows obj) prop') ∧
      ∃ r, OpSet.visibleAtKey (tx'.ops.rows obj) prop = [r] ∧
        Leads tx (tx.ops.rows obj) prop action r := by
  have hnd := h.nodup obj
  have hne : action ≠ .delete := by
    rintro rfl
    cases ha
  have hinc : action.isIncrement = false := by
    cases action <;> first | rfl | cases ha
  let found : OpSet.OpsFound A :=
    ⟨0, OpSet.visibleAtKey (tx.ops.rows obj) prop, keyEnd (tx.ops.rows obj) prop⟩
  -- the value is written over all that is visible
  have hwrite : resolveAction found.ops action = some (found.ops, action) →
      (∀ v last, action = .put v →
        (OpSet.visibleAtKey (tx.ops.rows obj) prop).getLast? = some last → ¬ Holds last v) →
      ∃ tx' id, tx.localMapOp obj prop action = (tx', .ok id) ∧
        (∀ prop', prop' ≠ prop → OpSet.visibleAtKey (tx'.ops.rows obj) prop' =
          OpSet.visibleAtKey (tx.ops.rows obj) prop') ∧
        ∃ r, OpSet.visibleAtKey (tx'.ops.rows obj) prop = [r] ∧
          Leads tx (tx.ops.rows obj) prop action r := by
    intro hres hnot
    obtain ⟨tx', heq, hrows⟩ := rows_localOp tx obj (.map prop) found hres hinc
    rw [if_neg hne] at hrows
    refine ⟨tx', some tx.nextId, ?_, ?_, row tx.nextId
      ⟨obj, .map prop, false, action, found.ops.map Row.id⟩, ?_, .new rfl rfl rfl hnot⟩
    · simp only [localMapOp]
      rw [heq]
      rfl
    · intro prop' hp
      rw [hrows]
      exact visibleAtKey_overwrite_ne hp hnd
        (fun r hr => by rw [List.mem_singleton.mp hr]; rfl) (ids_at_key fun r hr => hr)
    · rw [hrows]
      apply visibleAtKey_overwrite_all
      · intro r hr
        rw [List.mem_singleton.mp hr]
        refine ⟨?_, rfl⟩
        simp [row, hinc]
      · intro r hr hin
        rw [List.mem_singleton.mp hr] at hin
        obtain ⟨r', hr', hid⟩ := List.mem_map.mp hin
        have hlt := h.ids obj r' (mem_of_mem_visibleAtKey hr').1
        rw [show r'.id = tx.nextId from hid] at hlt
        exact lt_irrefl _ hlt
  cases hlast : (OpSet.visibleAtKey (tx.ops.rows obj) prop).getLast? with
  | none =>
    refine hwrite ?_ fun _ _ _ hl => ?_
    · unfold resolveAction
      cases action with
      | put | make => simp [found, hlast]
      | delete | increment | markBegin | markEnd => cases ha
    · rw [hlast] at hl
      cases hl
  | some last =>
    cases action with
    | make t =>
      refine hwrite ?_ fun _ _ hput => by cases hput
      unfold resolveAction
      simp [found, hlast]
    | put v =>
      by_cases hsame : (last.action.isSetOrMake && last.action.objType? = none &&
          last.fixedValue.eq v) = true
      · have hsame' := hsame
        simp only [Bool.and_eq_true, decide_eq_true_eq] at hsame'
        have hkept : Leads tx (tx.ops.rows obj) prop (.put v) last :=
          .kept hlast ⟨hsame'.1.1, hsame'.1.2, hsame'.2⟩
        by_cases hlen : (OpSet.visibleAtKey (tx.ops.rows obj) prop).length = 1
        · have hres : resolveAction found.ops (.put v) = none := by
            unfold resolveAction
            simp only [found, hlast, hsame, if_true, hlen]
          refine ⟨tx, none, ?_, fun _ _ => rfl, last, ?_, hkept⟩
          · simp only [localMapOp, localOp]
            rw [show resolveAction (OpSet.visibleAtKey (tx.ops.rows obj) prop) (.put v) = none from
              hres]
            rfl
          · obtain ⟨r, hr⟩ := List.length_eq_one_iff.mp hlen
            rw [hr] at hlast ⊢
            rw [List.getLast?_singleton] at hlast
            rw [Option.some.inj hlast]
        · have hres : resolveAction found.ops (.put v) = some (found.ops.dropLast, .delete) := by
            unfold resolveAction
            simp only [found, hlast, hsame, if_true, hlen, if_false]
          obtain ⟨tx', heq, hrows⟩ := rows_localOp tx obj (.map prop) found hres rfl
          rw [if_pos rfl] at hrows
          refine ⟨tx', some tx.nextId, ?_, ?_, last, ?_, hkept⟩
          · simp only [localMapOp]
            rw [heq]
            rfl
          · intro prop' hp
            rw [hrows]
            exact visibleAtKey_overwrite_ne hp hnd (fun r hr => absurd hr List.not_mem_nil)
              (ids_at_key fun r hr => (List.dropLast_sublist _).subset hr)
          · rw [hrows]
            exact visibleAtKey_dropLast hnd hlast
      · refine hwrite ?_ fun v' last' hput hl hh => ?_
        · unfold resolveAction
          simp only [found, hlast, hsame, if_false, Bool.false_eq_true]
        · cases hput
          rw [hlast] at hl
          cases hl
          obtain ⟨hs, ho, hv⟩ := hh
          exact hsame (by simp [hs, ho, hv])
    | delete | increment | markBegin | markEnd => cases ha

end Tx

end AutomergeR
