import Mathlib.Data.List.Perm.Subperm
import Mathlib.Data.List.SplitBy
import AutomergeR.BatchTop

/-! # A batch keeps the index

The registers of a walk take up the rows of the object and the operations of the batch, each
once. Of the new rows of a list the index is right if it was before and every increment of
the batch names counters; those of a map are still in order.
-/

namespace AutomergeR

variable {A : Type}

/-! ## The elements of a sequence -/

section

variable {rows : List (Row A)}

theorem elements_fst : ∀ rows : List (Row A),
    (elements rows).1 = rows.takeWhile fun x => !x.insert
  | [] => rfl
  | r :: rows => by
    have ih := elements_fst rows
    unfold elements
    dsimp only
    cases hins : r.insert with
    | true => simp [hins]
    | false => simp [hins, ih]

theorem elements_rows : ∀ rows : List (Row A),
    (elements rows).1 ++ (elements rows).2.flatMap (fun el => el.1 :: el.2) = rows
  | [] => rfl
  | r :: rows => by
    have ih := elements_rows rows
    unfold elements
    dsimp only
    cases hins : r.insert with
    | true =>
      rw [if_pos rfl, List.nil_append, List.flatMap_cons, List.cons_append]
      exact congrArg (r :: ·) ih
    | false => exact congrArg (r :: ·) ih

theorem elements_insert : ∀ rows : List (Row A), ∀ el ∈ (elements rows).2,
    el.1.insert = true ∧ ∀ r ∈ el.2, r.insert = false
  | [], el, hel => absurd hel List.not_mem_nil
  | r :: rows, el, hel => by
    have ih := elements_insert rows
    unfold elements at hel
    dsimp only at hel
    cases hins : r.insert with
    | true =>
      rw [hins, if_pos rfl] at hel
      rcases List.mem_cons.mp hel with rfl | hel
      · refine ⟨hins, fun x hx => ?_⟩
        rw [elements_fst] at hx
        simpa using List.mem_takeWhile_imp hx
      · exact ih el hel
    | false =>
      rw [hins] at hel
      exact ih el hel

/-- What holds along the rows of a sequence holds along each element. -/
theorem along_elements {P : Row A → List (Row A) → Prop} : ∀ {rows : List (Row A)},
    OpSet.Along P rows → OpSet.Along P (elements rows).1 ∧
      ∀ el ∈ (elements rows).2, OpSet.Along P (el.1 :: el.2)
  | [], _ => ⟨trivial, fun el hel => absurd hel List.not_mem_nil⟩
  | r :: rows, ⟨hr, hrows⟩ => by
    obtain ⟨hfst, hels⟩ := along_elements hrows
    have hrest : P r ((elements rows).1.takeWhile fun x => !x.insert) := by
      have htake : (elements rows).1.takeWhile (fun x => !x.insert) =
          rows.takeWhile fun x => !x.insert := by
        rw [elements_fst, List.takeWhile_takeWhile]
        simp
      rw [htake]
      exact hr
    unfold elements
    dsimp only
    cases hins : r.insert with
    | true =>
      rw [if_pos rfl]
      refine ⟨trivial, fun el hel => ?_⟩
      rcases List.mem_cons.mp hel with rfl | hel
      · exact ⟨hrest, hfst⟩
      · exact hels el hel
    | false => exact ⟨⟨hrest, hfst⟩, hels⟩

end

/-! ## The registers of a list -/

variable [LinearOrder A]

omit [LinearOrder A] in
theorem docs_change (cs : List (ChangeOp A)) : (cs.map Entry.change).filterMap Entry.doc? = [] := by
  rw [List.filterMap_map]
  exact List.filterMap_eq_nil_iff.mpr fun c _ => rfl

theorem mergeElement_docs (ops : List (ChangeOp A)) : ∀ (updates : List (ChangeOp A))
    (rows : List (Row A)), (mergeElement ops updates rows).filterMap Entry.doc? = rows
  | updates, [] => docs_change updates
  | updates, r :: rows => by
    unfold mergeElement
    rw [List.filterMap_append, docs_change, List.nil_append]
    exact congrArg (r :: ·) (mergeElement_docs ops _ rows)

theorem mem_mergeElement {ops : List (ChangeOp A)} {e : Entry A} :
    ∀ {updates : List (ChangeOp A)} {rows : List (Row A)}, e ∈ mergeElement ops updates rows →
      (∃ c ∈ updates, e = .change c) ∨ ∃ r ∈ rows, e = .doc r (predsOf ops r.id)
  | updates, [], h => by
    obtain ⟨c, hc, rfl⟩ := List.mem_map.mp h
    exact Or.inl ⟨c, hc, rfl⟩
  | updates, r :: rows, h => by
    unfold mergeElement at h
    rcases List.mem_append.mp h with h | h
    · obtain ⟨c, hc, rfl⟩ := List.mem_map.mp h
      exact Or.inl ⟨c, (List.takeWhile_sublist _).subset hc, rfl⟩
    · rcases List.mem_cons.mp h with rfl | h
      · exact Or.inr ⟨r, List.mem_cons_self, rfl⟩
      · rcases mem_mergeElement h with ⟨c, hc, rfl⟩ | ⟨x, hx, rfl⟩
        · exact Or.inl ⟨c, (List.dropWhile_sublist _).subset hc, rfl⟩
        · exact Or.inr ⟨x, List.mem_cons_of_mem _ hx, rfl⟩

/-- The registers of a walk: those of the document's elements, and those of new ones. -/
inductive ListRegister (ops : List (ChangeOp A)) (els : List (Row A × List (Row A))) :
    Register A → Prop where
  | walked {r : Row A} {rest : List (Row A)} (h : (r, rest) ∈ els) : ListRegister ops els
      (.walked (.doc r (predsOf ops r.id) :: mergeElement ops (updatesOf ops r.id) rest))
  | fresh {c : ChangeOp A} (hc : c ∈ ops) (hins : c.insert = true) :
    ListRegister ops els (.fresh (c :: followers ops c))

theorem mem_insertsAt {ops : List (ChangeOp A)} {e : ElemId A} {c : ChangeOp A}
    (h : c ∈ insertsAt ops e) : c ∈ ops ∧ c.insert = true := by
  obtain ⟨hc, h⟩ := List.mem_filter.mp h
  exact ⟨hc, ((Bool.and_eq_true _ _).mp h).1⟩

theorem untangleTo_registers {ops : List (ChangeOp A)} (els : List (Row A × List (Row A)))
    (n : ℕ) : ∀ (fuel : ℕ) (stack : List (ChangeOp A)),
      (∀ c ∈ stack, c ∈ ops ∧ c.insert = true) →
      (∀ g ∈ (untangleTo ops n fuel stack).1, ListRegister ops els g ∧ g.docs = []) ∧
        ∀ c ∈ (untangleTo ops n fuel stack).2, c ∈ ops ∧ c.insert = true
  | 0, stack, h => ⟨fun g hg => absurd hg List.not_mem_nil, h⟩
  | fuel + 1, [], h => ⟨fun g hg => absurd hg List.not_mem_nil, h⟩
  | fuel + 1, c :: stack, h => by
    unfold untangleTo
    split
    · exact ⟨fun g hg => absurd hg List.not_mem_nil, h⟩
    · have hnext : ∀ x ∈ (insertsAt ops (some c.id)).reverse ++ stack, x ∈ ops ∧ x.insert = true := by
        intro x hx
        rcases List.mem_append.mp hx with hx | hx
        · exact mem_insertsAt (List.mem_reverse.mp hx)
        · exact h x (List.mem_cons_of_mem _ hx)
      obtain ⟨hrs, hstack⟩ := untangleTo_registers els n fuel _ hnext
      refine ⟨fun g hg => ?_, hstack⟩
      rcases List.mem_cons.mp hg with rfl | hg
      · obtain ⟨hc, hins⟩ := h c List.mem_cons_self
        exact ⟨.fresh hc hins, rfl⟩
      · exact hrs g hg

theorem walkList_registers (ops : List (ChangeOp A)) : ∀ (els : List (Row A × List (Row A)))
    (stack : List (ChangeOp A)), (∀ c ∈ stack, c ∈ ops ∧ c.insert = true) →
      (∀ g ∈ walkList ops els stack, ListRegister ops els g) ∧
        (walkList ops els stack).flatMap Register.docs = els.flatMap fun el => el.1 :: el.2
  | [], stack, h => by
    obtain ⟨hrs, -⟩ := untangleTo_registers [] 0 ops.length stack h
    exact ⟨fun g hg => (hrs g hg).1, List.flatMap_eq_nil_iff.mpr fun g hg => (hrs g hg).2⟩
  | (r, rest) :: els, stack, h => by
    obtain ⟨hrs, hstack⟩ := untangleTo_registers ((r, rest) :: els)
      (stack.countP fun c => c.id < r.id) ops.length stack h
    unfold walkList
    dsimp only
    generalize untangleTo ops (stack.countP fun c => c.id < r.id) ops.length stack = reply
      at hrs hstack
    obtain ⟨rs, stack⟩ := reply
    have hnext : ∀ x ∈ (insertsAt ops (some r.id)).reverse ++ stack, x ∈ ops ∧ x.insert = true := by
      intro x hx
      rcases List.mem_append.mp hx with hx | hx
      · exact mem_insertsAt (List.mem_reverse.mp hx)
      · exact hstack x hx
    obtain ⟨hwalk, hdocs⟩ := walkList_registers ops els _ hnext
    constructor
    · intro g hg
      rcases List.mem_append.mp hg with hg | hg
      · exact (hrs g hg).1
      · rcases List.mem_cons.mp hg with rfl | hg
        · exact .walked List.mem_cons_self
        · cases hwalk g hg with
          | walked h => exact .walked (List.mem_cons_of_mem _ h)
          | fresh hc hins => exact .fresh hc hins
    · have hnone : rs.flatMap Register.docs = [] :=
        List.flatMap_eq_nil_iff.mpr fun g hg => (hrs g hg).2
      rw [List.flatMap_append, hnone, List.nil_append, List.flatMap_cons, hdocs, List.flatMap_cons]
      congr 1
      exact congrArg (r :: ·) (mergeElement_docs ops _ rest)

/-! ## A batch on a list -/

/-- What a batch brings to a list: ids that are not in use, values where it inserts, and
increments of counters only. -/
structure ListBatch (ops : List (ChangeOp A)) (rows : List (Row A)) : Prop where
  nodup : (rows.map Row.id ++ ops.map ChangeOp.id).Nodup
  key : ∀ c ∈ ops, ∃ e, c.op.key = .seq e
  unmarked : ∀ c ∈ ops, c.op.action.isMark = false
  insertion : ∀ c ∈ ops, c.insert = true → c.op.action.isSetOrMake = true
  rows : ∀ r ∈ rows, ∀ s ∈ predsOf ops r.id, s.2.isSome = true → r.action.isCounter = true
  ops : ∀ c ∈ ops, (Entry.change c).Ok

/-- A new row is a row with more successors, or that of an operation. -/
theorem Register.mem_rows {g : Register A} {new : Row A} (h : new ∈ g.rows) :
    (∃ r ∈ g.docs, ∃ (t : Tops A) (preds : List (OpId A × Option ℤ)),
      new = preds.foldl Row.addSucc (t.adjust r)) ∨
      ∃ c ∈ g.changes, c.op.action ≠ .delete ∧ ∃ conflicted, new = c.toRow conflicted := by
  have hchange : ∀ {t : Tops A} {c : ChangeOp A}, t.row (.change c) = some new →
      c.op.action ≠ .delete ∧ ∃ conflicted, new = c.toRow conflicted := by
    intro t c h
    obtain ⟨hdel, rfl⟩ := Tops.row_change.mp h
    exact ⟨hdel, _, rfl⟩
  cases g with
  | walked es =>
    obtain ⟨e, he, hrow⟩ := List.mem_filterMap.mp h
    cases e with
    | doc r preds =>
      left
      exact ⟨r, List.mem_filterMap.mpr ⟨_, he, rfl⟩, (es.foldl Tops.process .start).reset, preds,
        (Option.some.inj hrow).symm⟩
    | change c =>
      right
      refine ⟨c, ?_, hchange hrow⟩
      rw [changes_walked]
      exact List.mem_filterMap.mpr ⟨_, he, rfl⟩
  | fresh ops =>
    obtain ⟨c, hc, hrow⟩ := List.mem_filterMap.mp h
    exact Or.inr ⟨c, hc, hchange hrow⟩

omit [LinearOrder A] in
/-- The index of an operation's row is right. -/
theorem ChangeOp.indexed_toRow {c : ChangeOp A} (hok : (Entry.change c).Ok)
    (hdel : c.op.action ≠ .delete) (conflicted : Bool) : (c.toRow conflicted).Indexed := by
  have hunhidden : (c.toRow conflicted).unhidden = !c.hasSucc := by
    show (if c.op.action.isCounter then c.succ.all fun s => s.2.isSome else c.succ.isEmpty) = _
    unfold hasSucc
    cases hcounter : c.op.action.isCounter with
    | true =>
      rw [if_pos rfl, List.not_any_eq_all_not]
      congr 1
      funext s
      cases s.2 <;> rfl
    | false =>
      have hnone : ∀ s ∈ c.succ, s.2 = none := by
        intro s hs
        by_contra hsome
        have := hok s hs (Option.ne_none_iff_isSome.mp hsome)
        rw [hcounter] at this
        cases this
      rw [if_neg Bool.false_ne_true]
      cases hsucc : c.succ with
      | nil => rfl
      | cons s succ => simp [hnone s (by rw [hsucc]; exact List.mem_cons_self)]
  show c.visible = (!c.op.action.isIncrement && (c.toRow conflicted).unhidden)
  rw [hunhidden]
  unfold visible
  simp [hdel]

theorem Tops.indexed_adjust {r : Row A} (h : r.Indexed) (t : Tops A) : (t.adjust r).Indexed := by
  unfold Row.Indexed Row.isInc Row.unhidden at h ⊢
  simpa using h

/-- The rows of a list behind a batch, as far as each row goes. -/
theorem rowOk_mem {g : Register A} {new : Row A} (h : new ∈ g.rows) 
    (hdocs : ∀ r ∈ g.docs, Tx.RowOk r ∧ (∃ e, r.key = .seq e) ∧ r.action.isMark = false)
    (hok : ∀ c ∈ g.changes, (Entry.change c).Ok ∧ (∃ e, c.op.key = .seq e) ∧
      c.op.action.isMark = false ∧ (c.insert = true → c.op.action.isSetOrMake = true)) :
    Tx.RowOk new ∧ (∃ e, new.key = .seq e) ∧ new.action.isMark = false := by
  rcases Register.mem_rows h with ⟨r, hr, t, preds, rfl⟩ | ⟨c, hc, hdel, conflicted, rfl⟩
  · obtain ⟨⟨hidx, hins⟩, hkey, hmark⟩ := hdocs r hr
    refine ⟨⟨(Tops.indexed_adjust hidx t).foldl_addSucc, ?_⟩, ?_, ?_⟩
    · unfold Row.isInc at hins ⊢
      simpa using hins
    · simpa using hkey
    · simpa using hmark
  · obtain ⟨hokc, hkey, hmark, hins⟩ := hok c hc
    refine ⟨⟨ChangeOp.indexed_toRow hokc hdel conflicted, ?_⟩, hkey, hmark⟩
    intro hinsert
    have hset : c.op.action.isSetOrMake = true := hins hinsert
    show c.op.action.isIncrement = false
    cases ha : c.op.action with
    | increment n =>
      rw [ha] at hset
      cases hset
    | make | delete | put | markBegin | markEnd => rfl

theorem mem_followers {ops : List (ChangeOp A)} {c o : ChangeOp A} (h : o ∈ followers ops c) :
    o ∈ ops ∧ o.insert = false := by
  have hmem := (List.takeWhile_sublist _).subset h
  have himp := List.mem_takeWhile_imp h
  refine ⟨(List.dropWhile_sublist _).subset (List.mem_of_mem_drop hmem), ?_⟩
  simp only [Bool.and_eq_true, Bool.not_eq_true'] at himp
  exact himp.1

def Entry.insert : Entry A → Bool
  | .doc r _ => r.insert
  | .change c => c.insert

theorem Tops.row_insert {t : Tops A} {e : Entry A} {new : Row A} (h : t.row e = some new) :
    new.insert = e.insert := by
  cases e with
  | doc r preds =>
    cases h
    simp [Entry.insert]
  | change c =>
    obtain ⟨-, rfl⟩ := Tops.row_change.mp h
    rfl

theorem isElement_rows {t : Tops A} {e : Entry A} {es : List (Entry A)} {first : Row A}
    (hrow : t.row e = some first) (hins : e.insert = true) (hrest : ∀ x ∈ es, x.insert = false) :
    IsElement ((e :: es).filterMap t.row) := by
  rw [List.filterMap_cons_some hrow]
  refine ⟨fun x hx => ?_, fun x hx => ?_⟩
  · cases hx
    rw [Tops.row_insert hrow, hins]
  · obtain ⟨y, hy, hnew⟩ := List.mem_filterMap.mp hx
    rw [Tops.row_insert hnew, hrest y hy]

/-- The new rows of an element. -/
theorem isElement_register {ops : List (ChangeOp A)} {els : List (Row A × List (Row A))}
    (hels : ∀ el ∈ els, el.1.insert = true ∧ ∀ r ∈ el.2, r.insert = false)
    (hset : ∀ c ∈ ops, c.insert = true → c.op.action.isSetOrMake = true) {g : Register A}
    (h : ListRegister ops els g) : IsElement g.rows := by
  cases h with
  | @walked r rest hel =>
    obtain ⟨hins, hrest⟩ := hels _ hel
    refine @isElement_rows A _ _ (.doc r _) _ _ rfl hins fun x hx => ?_
    rcases mem_mergeElement hx with ⟨c, hc, rfl⟩ | ⟨y, hy, rfl⟩
    · obtain ⟨-, hc⟩ := List.mem_filter.mp hc
      simp only [Bool.and_eq_true, Bool.not_eq_true'] at hc
      exact hc.1
    · exact hrest y hy
  | @fresh c hc hins =>
    have hrow : ∀ t : Tops A, t.row (.change c) = some (c.toRow (t.conflicted.contains c.id)) := by
      intro t
      refine Tops.row_change.mpr ⟨fun hdel => ?_, rfl⟩
      have := hset c hc hins
      rw [hdel] at this
      cases this
    have hrows : ∀ t : Tops A, (c :: followers ops c).filterMap (fun o => t.row (.change o)) =
        (Entry.change c :: (followers ops c).map Entry.change).filterMap t.row := by
      intro t
      rw [← List.map_cons, List.filterMap_map]
      rfl
    unfold Register.rows
    dsimp only
    rw [hrows]
    refine isElement_rows (hrow _) hins fun x hx => ?_
    obtain ⟨o, ho, rfl⟩ := List.mem_map.mp hx
    exact (mem_followers ho).2

theorem good_register {ops : List (ChangeOp A)} {rows : List (Row A)} (h : IndexedRows rows)
    (hb : ListBatch ops rows) {g : Register A} (hg : ListRegister ops (elements rows).2 g)
    (hnodup : (g.docs.map Row.id ++ g.changes.map ChangeOp.id).Nodup) : g.Good := by
  have hnamed := (along_elements (along_named.mpr ⟨h.topLast, h.named⟩)).2
  have hmem : ∀ el ∈ (elements rows).2, ∀ r ∈ el.1 :: el.2, r ∈ rows := by
    intro el hel r hr
    rw [← elements_rows rows]
    exact List.mem_append_right _ (List.mem_flatMap.mpr ⟨el, hel, hr⟩)
  have hdoc : ∀ r ∈ rows, (Entry.doc r (predsOf ops r.id)).Ok :=
    fun r hr => ⟨h.indexed r hr, hb.rows r hr⟩
  cases hg with
  | @walked r rest hel =>
    have hupdates : ∀ c ∈ updatesOf ops r.id, c ∈ ops := fun c hc => List.mem_of_mem_filter hc
    have hentries : ∀ e ∈ Entry.doc r (predsOf ops r.id) ::
        mergeElement ops (updatesOf ops r.id) rest, e.Ok := by
      intro e he
      rcases List.mem_cons.mp he with rfl | he
      · exact hdoc r (hmem _ hel r List.mem_cons_self)
      · rcases mem_mergeElement he with ⟨c, hc, rfl⟩ | ⟨x, hx, rfl⟩
        · exact hb.ops c (hupdates c hc)
        · exact hdoc x (hmem _ hel x (List.mem_cons_of_mem _ hx))
    refine ⟨hnodup, ?_, fun c hc => ?_, fun es hes => ?_⟩
    · have hdocs : (Register.walked (.doc r (predsOf ops r.id) ::
          mergeElement ops (updatesOf ops r.id) rest)).docs = r :: rest :=
        congrArg (r :: ·) (mergeElement_docs ops _ rest)
      rw [hdocs]
      exact (OpSet.along_element (elements_insert rows _ hel).2).mp (hnamed _ hel)
    · rw [Register.changes_walked] at hc
      obtain ⟨e, he, hec⟩ := List.mem_filterMap.mp hc
      cases e with
      | doc x preds => cases hec
      | change o =>
        cases hec
        rcases List.mem_cons.mp he with he | he
        · cases he
        · rcases mem_mergeElement he with ⟨o, ho, heq⟩ | ⟨x, -, heq⟩
          · cases heq
            exact ⟨hb.ops c (hupdates c ho), hb.unmarked c (hupdates c ho)⟩
          · cases heq
    · cases hes
      exact hentries
  | @fresh c hc hins =>
    refine ⟨hnodup, fun a r b hab => absurd hab (by simp [Register.docs]), fun o ho => ?_,
      fun es hes => by cases hes⟩
    have ho : o ∈ ops := by
      rcases List.mem_cons.mp ho with rfl | ho
      · exact hc
      · exact (mem_followers ho).1
    exact ⟨hb.ops o ho, hb.unmarked o ho⟩

/-- **A batch keeps the index of a list**, if its increments name counters. -/
theorem indexedRows_applyObj {ops : List (ChangeOp A)} {rows rows' : List (Row A)}
    (h : IndexedRows rows) (hb : ListBatch ops rows)
    (heq : applyObj (some .list) ops rows = some rows') : IndexedRows rows' := by
  unfold applyObj at heq
  dsimp only at heq
  by_cases hperm : ((listRegisters ops rows).flatMap Register.changes).Perm ops
  · rw [if_pos hperm, Option.some.injEq] at heq
    subst heq
    have hbefore : (elements rows).1 = [] := by
      rw [elements_fst]
      cases rows with
      | nil => rfl
      | cons r rows =>
        rw [List.takeWhile_cons_of_neg]
        rw [h.head r rfl]
        exact Bool.false_ne_true
    have hregisters : listRegisters ops rows =
        .walked [] :: walkList ops (elements rows).2 (insertsAt ops none).reverse := by
      unfold listRegisters
      dsimp only
      rw [hbefore]
      rfl
    obtain ⟨hwalk, hdocs⟩ := walkList_registers ops (elements rows).2
      (insertsAt ops none).reverse fun c hc => mem_insertsAt (List.mem_reverse.mp hc)
    have hrows := elements_rows rows
    rw [hbefore, List.nil_append] at hrows
    rw [hrows] at hdocs
    rw [hregisters] at hperm ⊢
    have hnil : (Register.walked ([] : List (Entry A))).rows = [] := rfl
    have hnil' : (Register.walked ([] : List (Entry A))).changes = [] := rfl
    rw [List.flatMap_cons, hnil', List.nil_append] at hperm
    rw [List.flatMap_cons, hnil, List.nil_append]
    generalize walkList ops (elements rows).2 (insertsAt ops none).reverse = gs
      at hwalk hdocs hperm ⊢
    have hchanges : ∀ g ∈ gs, ∀ c ∈ g.changes, c ∈ ops := fun g hg c hc =>
      hperm.subset (List.mem_flatMap.mpr ⟨g, hg, hc⟩)
    have hdocs' : ∀ g ∈ gs, ∀ r ∈ g.docs, r ∈ rows := fun g hg r hr =>
      hdocs ▸ List.mem_flatMap.mpr ⟨g, hg, hr⟩
    have hgood : ∀ g ∈ gs, g.Good := by
      intro g hg
      refine good_register h hb (hwalk g hg) ?_
      have hnodup := hb.nodup
      rw [← hdocs] at hnodup
      refine List.Nodup.sublist (List.Sublist.append (List.Sublist.map _ ?_) (List.Sublist.map _ ?_))
        ((List.Perm.append_left _ (hperm.map _)).nodup_iff.mpr hnodup)
      · exact List.sublist_flatten_of_mem (List.mem_map_of_mem hg)
      · exact List.sublist_flatten_of_mem (List.mem_map_of_mem hg)
    have helement : ∀ g ∈ gs, IsElement g.rows := fun g hg =>
      isElement_register (elements_insert rows) hb.insertion (hwalk g hg)
    have hnamed : ∀ g ∈ gs, OpSet.Along Named g.rows := by
      intro g hg
      apply (OpSet.along_element (helement g hg).tail).mpr
      cases g with
      | walked es => exact Register.named_walked (hgood _ hg)
      | fresh ops => exact Register.named_fresh (hgood _ hg)
    obtain ⟨halong, hhead⟩ := along_flatMap fun g hg => ⟨helement g hg, hnamed g hg⟩
    obtain ⟨htop, hlast⟩ := along_named.mp halong
    have hok : ∀ new ∈ gs.flatMap Register.rows,
        Tx.RowOk new ∧ (∃ e, new.key = .seq e) ∧ new.action.isMark = false := by
      intro new hnew
      obtain ⟨g, hg, hnew⟩ := List.mem_flatMap.mp hnew
      refine rowOk_mem hnew (fun r hr => ?_) fun c hc => ?_
      · have hr := hdocs' g hg r hr
        exact ⟨⟨h.indexed r hr, h.insertion r hr⟩, h.key r hr, h.unmarked r hr⟩
      · have hc := hchanges g hg c hc
        exact ⟨hb.ops c hc, hb.key c hc, hb.unmarked c hc, hb.insertion c hc⟩
    exact
      { head := hhead
        key := fun r hr => (hok r hr).2.1
        unmarked := fun r hr => (hok r hr).2.2
        isInc := fun r hr hinc => by
          rw [(hok r hr).1.1, hinc]
          rfl
        topLast := htop
        insertion := fun r hr => (hok r hr).1.2
        indexed := fun r hr => (hok r hr).1.1
        named := hlast }
  · rw [if_neg hperm] at heq
    cases heq

theorem sublist_row {B : Type} {f : Row A → B} {f' : Entry A → B} {t : Tops A}
    (hf : ∀ e new, t.row e = some new → f new = f' e) (es : List (Entry A)) :
    ((es.filterMap t.row).map f).Sublist (es.map f') := by
  induction es with
  | nil => exact .slnil
  | cons e es ih =>
    cases h : t.row e with
    | none =>
      rw [List.filterMap_cons_none h]
      exact ih.cons _
    | some new =>
      rw [List.filterMap_cons_some h, List.map_cons, List.map_cons, hf e new h]
      exact ih.cons_cons _

/-! ## A batch on a map -/

/-- The key of an operation on a map. -/
def ChangeOp.mapKey (c : ChangeOp A) : String :=
  match c.op.key with
  | .map prop => prop
  | .seq _ => ""

/-- A row or an operation, by one rank. -/
def Entry.rank {B : Type} (f : Row A → B) (g : ChangeOp A → B) : Entry A → B
  | .doc r _ => f r
  | .change c => g c

/-- What a batch brings to a map: operations on keys, and increments of counters only. -/
structure MapBatch (ops : List (ChangeOp A)) : Prop where
  key : ∀ c ∈ ops, c.op.key = .map c.mapKey
  insert : ∀ c ∈ ops, c.insert = false
  ops : ∀ c ∈ ops, (Entry.change c).Ok

theorem mapKey_row {t : Tops A} {e : Entry A} {new : Row A} (h : t.row e = some new) :
    new.mapKey = e.rank Row.mapKey ChangeOp.mapKey := by
  cases e with
  | doc r preds =>
    cases h
    show (preds.foldl Row.addSucc (t.adjust r)).mapKey = r.mapKey
    unfold Row.mapKey
    simp
  | change c =>
    obtain ⟨-, rfl⟩ := Tops.row_change.mp h
    rfl

/-- What is said of the new rows follows what is passed, in its order. -/
theorem sublist_mapRegisters {B : Type} {f : Row A → B} {f' : Entry A → B}
    (hf : ∀ (t : Tops A) e new, t.row e = some new → f new = f' e) (es : List (Entry A)) :
    (((mapRegisters es).flatMap Register.rows).map f).Sublist (es.map f') := by
  have hgroups : ∀ gs : List (List (Entry A)),
      (((gs.map Register.walked).flatMap Register.rows).map f).Sublist (gs.flatten.map f') := by
    intro gs
    induction gs with
    | nil => exact .slnil
    | cons g gs ih =>
      rw [List.map_cons, List.flatMap_cons, List.map_append, List.flatten_cons, List.map_append]
      exact (sublist_row (hf _) g).append ih
  have h := hgroups (es.splitBy fun a b => a.key = b.key)
  rwa [List.flatten_splitBy] at h

theorem mem_mapRegisters {es : List (Entry A)} {new : Row A}
    (h : new ∈ (mapRegisters es).flatMap Register.rows) :
    (∃ r ∈ es.filterMap Entry.doc?, ∃ (t : Tops A) (preds : List (OpId A × Option ℤ)),
      new = preds.foldl Row.addSucc (t.adjust r)) ∨
      ∃ c ∈ es.filterMap Entry.change?, c.op.action ≠ .delete ∧
        ∃ conflicted, new = c.toRow conflicted := by
  obtain ⟨g, hg, hnew⟩ := List.mem_flatMap.mp h
  obtain ⟨l, hl, rfl⟩ := List.mem_map.mp hg
  have hsub : ∀ e ∈ l, e ∈ es := by
    intro e he
    rw [← List.flatten_splitBy (fun a b : Entry A => a.key = b.key) es]
    exact List.mem_flatten.mpr ⟨l, hl, he⟩
  rcases Register.mem_rows hnew with ⟨r, hr, hrest⟩ | ⟨c, hc, hrest⟩
  · obtain ⟨e, he, hdoc⟩ := List.mem_filterMap.mp hr
    exact Or.inl ⟨r, List.mem_filterMap.mpr ⟨e, hsub e he, hdoc⟩, hrest⟩
  · rw [Register.changes_walked] at hc
    obtain ⟨e, he, hchange⟩ := List.mem_filterMap.mp hc
    exact Or.inr ⟨c, List.mem_filterMap.mpr ⟨e, hsub e he, hchange⟩, hrest⟩

theorem mergeMap_cons (ops : List (ChangeOp A)) (rows : List (Row A)) (key : Option (Key A))
    (c : ChangeOp A) (cs : List (ChangeOp A)) : mergeMap ops rows key (c :: cs) =
      (((rows.takeWhile fun r => !r.behind c).map fun r => .doc r (predsOf ops r.id)) ++ .change c ::
        (mergeMap ops (rows.dropWhile fun r => !r.behind c) (some c.op.key) cs).1,
        (mergeMap ops (rows.dropWhile fun r => !r.behind c) (some c.op.key) cs).2) := rfl

/-- The rows and the operations are all there. -/
theorem mergeMap_all (ops : List (ChangeOp A)) : ∀ (cs : List (ChangeOp A)) (rows : List (Row A))
    (key : Option (Key A)),
    (mergeMap ops rows key cs).1.filterMap Entry.doc? ++ (mergeMap ops rows key cs).2 = rows ∧
      (mergeMap ops rows key cs).1.filterMap Entry.change? = cs := by
  have hdocs : ∀ l : List (Row A), (l.map fun r => Entry.doc r (predsOf ops r.id)).filterMap
      Entry.doc? = l ∧ (l.map fun r => Entry.doc r (predsOf ops r.id)).filterMap
        Entry.change? = [] := by
    intro l
    rw [List.filterMap_map, List.filterMap_map]
    exact ⟨List.filterMap_some, List.filterMap_eq_nil_iff.mpr fun r _ => rfl⟩
  intro cs
  induction cs with
  | nil =>
    intro rows key
    unfold mergeMap
    rw [(hdocs _).1, (hdocs _).2]
    exact ⟨List.takeWhile_append_dropWhile, rfl⟩
  | cons c cs ih =>
    intro rows key
    obtain ⟨hrows, hcs⟩ := ih (rows.dropWhile fun r => !r.behind c) (some c.op.key)
    rw [mergeMap_cons]
    dsimp only
    rw [List.filterMap_append, List.filterMap_append, (hdocs _).1, (hdocs _).2]
    refine ⟨?_, congrArg (c :: ·) hcs⟩
    rw [List.append_assoc]
    have hskip : (Entry.change c :: (mergeMap ops (rows.dropWhile fun r => !r.behind c)
        (some c.op.key) cs).1).filterMap Entry.doc? = (mergeMap ops
          (rows.dropWhile fun r => !r.behind c) (some c.op.key) cs).1.filterMap Entry.doc? := rfl
    rw [hskip, hrows]
    exact List.takeWhile_append_dropWhile

omit [LinearOrder A] in
theorem MapRows.sublist {rows rows' : List (Row A)} (h : MapRows rows) (hs : rows'.Sublist rows) :
    MapRows rows' where
  key r hr := h.key r (hs.subset hr)
  insert r hr := h.insert r (hs.subset hr)
  indexed r hr := h.indexed r (hs.subset hr)
  sorted := h.sorted.sublist hs

theorem mem_mergeMap {B : Type} {f : Row A → B} {g : ChangeOp A → B} {ops cs : List (ChangeOp A)}
    {rows : List (Row A)} {key : Option (Key A)} {k : B}
    (h : k ∈ (mergeMap ops rows key cs).1.map (Entry.rank f g) ++ (mergeMap ops rows key cs).2.map f) :
    (∃ r ∈ rows, k = f r) ∨ ∃ c ∈ cs, k = g c := by
  obtain ⟨hrows, hcs⟩ := mergeMap_all ops cs rows key
  rcases List.mem_append.mp h with h | h
  · obtain ⟨e, he, rfl⟩ := List.mem_map.mp h
    cases e with
    | doc r preds =>
      refine Or.inl ⟨r, ?_, rfl⟩
      rw [← hrows]
      exact List.mem_append_left _ (List.mem_filterMap.mpr ⟨_, he, rfl⟩)
    | change c =>
      refine Or.inr ⟨c, ?_, rfl⟩
      rw [← hcs]
      exact List.mem_filterMap.mpr ⟨_, he, rfl⟩
  · obtain ⟨r, hr, rfl⟩ := List.mem_map.mp h
    refine Or.inl ⟨r, ?_, rfl⟩
    rw [← hrows]
    exact List.mem_append_right _ hr

theorem Row.behind_iff {r : Row A} {c : ChangeOp A} (hr : r.key = .map r.mapKey)
    (hc : c.op.key = .map c.mapKey) : r.behind c = true ↔
      c.mapKey < r.mapKey ∨ r.mapKey = c.mapKey ∧ c.id < r.id := by
  unfold behind
  rw [hr, hc]
  exact decide_eq_true_iff

/-- Sorted rows and sorted operations are passed in their order. -/
theorem sorted_mergeMap {B : Type} {R : B → B → Prop} [IsTrans B R] {f : Row A → B}
    {g : ChangeOp A → B} (ops : List (ChangeOp A)) : ∀ (cs : List (ChangeOp A)) (rows : List (Row A))
    (key : Option (Key A)), rows.Pairwise (fun x y => R (f x) (f y)) →
    cs.Pairwise (fun a b => R (g a) (g b)) →
    (∀ r ∈ rows, ∀ c ∈ cs, if r.behind c then R (g c) (f r) else R (f r) (g c)) →
    ((mergeMap ops rows key cs).1.map (Entry.rank f g) ++ (mergeMap ops rows key cs).2.map f).Pairwise
      R := by
  intro cs
  induction cs with
  | nil =>
    intro rows key hrows _ _
    have hall : (mergeMap ops rows key []).1.map (Entry.rank f g) ++
        (mergeMap ops rows key []).2.map f = rows.map f := by
      unfold mergeMap
      dsimp only
      rw [List.map_map]
      have hcomp : Entry.rank f g ∘ (fun r : Row A => Entry.doc r (predsOf ops r.id)) = f := rfl
      rw [hcomp, ← List.map_append, List.takeWhile_append_dropWhile]
    rw [hall]
    exact List.pairwise_map.mpr hrows
  | cons c cs ih =>
    intro rows key hrows hcs hcross
    obtain ⟨hfirst, hcs⟩ := List.pairwise_cons.mp hcs
    have hdrop := hrows.sublist (List.dropWhile_sublist fun r => !r.behind c)
    have hsub := (List.dropWhile_sublist (l := rows) fun r => !r.behind c).subset
    have ih := ih _ (some c.op.key) hdrop hcs fun r hr o ho =>
      hcross r (hsub hr) o (List.mem_cons_of_mem c ho)
    -- the rows that are passed come before the operation, the others behind it
    have hbefore : ∀ r ∈ rows.takeWhile fun r => !r.behind c, R (f r) (g c) := by
      intro r hr
      have hrank := hcross r ((List.takeWhile_sublist _).subset hr) c List.mem_cons_self
      rwa [if_neg (by simpa using List.mem_takeWhile_imp hr)] at hrank
    have hbehind : ∀ r ∈ rows.dropWhile fun r => !r.behind c, R (g c) (f r) := by
      cases hd : rows.dropWhile fun r => !r.behind c with
      | nil => exact fun r hr => absurd hr List.not_mem_nil
      | cons first rest =>
        have hhead := List.head?_dropWhile_not (fun r : Row A => !r.behind c) rows
        rw [hd] at hhead hdrop
        have hle := hcross first (hsub (by rw [hd]; exact List.mem_cons_self)) c List.mem_cons_self
        rw [if_pos (by simpa using hhead)] at hle
        intro r hr
        rcases List.mem_cons.mp hr with rfl | hr
        · exact hle
        · exact trans_of R hle ((List.pairwise_cons.mp hdrop).1 r hr)
    have hnext : ∀ k ∈ (mergeMap ops (rows.dropWhile fun r => !r.behind c) (some c.op.key)
        cs).1.map (Entry.rank f g) ++ (mergeMap ops (rows.dropWhile fun r => !r.behind c)
          (some c.op.key) cs).2.map f, R (g c) k := by
      intro k hk
      rcases mem_mergeMap hk with ⟨r, hr, rfl⟩ | ⟨o, ho, rfl⟩
      · exact hbehind r hr
      · exact hfirst o ho
    have hall : (mergeMap ops rows key (c :: cs)).1.map (Entry.rank f g) ++
        (mergeMap ops rows key (c :: cs)).2.map f =
        (rows.takeWhile fun r => !r.behind c).map f ++ g c ::
          ((mergeMap ops (rows.dropWhile fun r => !r.behind c) (some c.op.key) cs).1.map
            (Entry.rank f g) ++ (mergeMap ops (rows.dropWhile fun r => !r.behind c) (some c.op.key)
              cs).2.map f) := by
      rw [mergeMap_cons]
      dsimp only
      rw [List.map_append, List.map_map, List.append_assoc]
      rfl
    rw [hall, List.pairwise_append, List.pairwise_cons]
    refine ⟨List.pairwise_map.mpr (hrows.sublist (List.takeWhile_sublist _)), ⟨hnext, ih⟩, ?_⟩
    intro k hk k' hk'
    obtain ⟨r, hr, rfl⟩ := List.mem_map.mp hk
    rcases List.mem_cons.mp hk' with rfl | hk'
    · exact hbefore r hr
    · exact trans_of R (hbefore r hr) (hnext k' hk')

/-- **A batch keeps the rows of a map in order and their index right.** -/
theorem mapRows_applyObj {ops : List (ChangeOp A)} {rows rows' : List (Row A)} (h : MapRows rows)
    (hb : MapBatch ops) (hsorted : ops.Pairwise fun a b => a.mapKey ≤ b.mapKey)
    (heq : applyObj (some .map) ops rows = some rows') : MapRows rows' := by
  unfold applyObj at heq
  dsimp only at heq
  have hall := mergeMap_all ops ops rows none
  have horder := sorted_mergeMap (R := (· ≤ ·)) (f := Row.mapKey) (g := ChangeOp.mapKey) ops ops rows
    none h.sorted hsorted fun r hr c hc => by
      split
      · rename_i hbehind
        rcases (Row.behind_iff (h.key r hr) (hb.key c hc)).mp hbehind with hlt | ⟨heq, -⟩
        · exact hlt.le
        · exact heq.ge
      · rename_i hnot
        rw [Row.behind_iff (h.key r hr) (hb.key c hc), not_or] at hnot
        exact not_lt.mp hnot.1
  generalize mergeMap ops rows none ops = reply at hall horder heq
  obtain ⟨es, rest⟩ := reply
  obtain ⟨hdocs, hchanges⟩ := hall
  dsimp only at hdocs hchanges horder heq
  cases heq
  have hrest : ∀ r ∈ rest, r ∈ rows := fun r hr => hdocs ▸ List.mem_append_right _ hr
  have hnew : ∀ new ∈ (mapRegisters es).flatMap Register.rows,
      new.key = .map new.mapKey ∧ new.insert = false ∧ new.Indexed := by
    intro new hnew
    rcases mem_mapRegisters hnew with ⟨r, hr, t, preds, rfl⟩ | ⟨c, hc, hdel, conflicted, rfl⟩
    · have hr : r ∈ rows := hdocs ▸ List.mem_append_left _ hr
      refine ⟨?_, ?_, (Tops.indexed_adjust (h.indexed r hr) t).foldl_addSucc⟩
      · have hkey := h.key r hr
        unfold Row.mapKey at hkey ⊢
        simpa using hkey
      · simpa using h.insert r hr
    · rw [hchanges] at hc
      exact ⟨hb.key c hc, hb.insert c hc, ChangeOp.indexed_toRow (hb.ops c hc) hdel conflicted⟩
  refine ⟨fun r hr => ?_, fun r hr => ?_, fun r hr => ?_, ?_⟩
  · rcases List.mem_append.mp hr with hr | hr
    · exact (hnew r hr).1
    · exact h.key r (hrest r hr)
  · rcases List.mem_append.mp hr with hr | hr
    · exact (hnew r hr).2.1
    · exact h.insert r (hrest r hr)
  · rcases List.mem_append.mp hr with hr | hr
    · exact (hnew r hr).2.2
    · exact h.indexed r (hrest r hr)
  · rw [← List.pairwise_map, List.map_append]
    exact horder.sublist ((sublist_mapRegisters (fun t e new => mapKey_row) es).append
      (List.Sublist.refl _))

/-! ## The ids of the new rows -/

theorem Tops.row_id {t : Tops A} {e : Entry A} {new : Row A} (h : t.row e = some new) :
    new.id = e.id := by
  cases e with
  | doc r preds =>
    cases h
    simp [Entry.id]
  | change c =>
    obtain ⟨-, rfl⟩ := Tops.row_change.mp h
    rfl

theorem subperm_register (g : Register A) : (g.rows.map Row.id).Subperm
    (g.docs.map Row.id ++ g.changes.map ChangeOp.id) := by
  cases g with
  | walked es =>
    have hsub : ((Register.walked es).rows.map Row.id).Sublist (es.map Entry.id) :=
      sublist_row (fun e new h => Tops.row_id h) es
    rw [Register.changes_walked]
    exact hsub.subperm.trans (Entry.ids_perm es).subperm
  | fresh ops =>
    let t : Tops A := ⟨.nothing, ((ops.filter fun c =>
      c.op.action.isSetOrMake && !c.hasSucc).map ChangeOp.id).dropLast, [], []⟩
    have hrows : (Register.fresh ops).rows = (ops.map Entry.change).filterMap t.row := by
      rw [List.filterMap_map]
      rfl
    have hsub : (((ops.map Entry.change).filterMap t.row).map Row.id).Sublist
        ((ops.map Entry.change).map Entry.id) := sublist_row (fun e new h => Tops.row_id h) _
    rw [hrows]
    rw [List.map_map] at hsub
    exact hsub.subperm

theorem subperm_registers (gs : List (Register A)) :
    ((gs.flatMap Register.rows).map Row.id).Subperm
      ((gs.flatMap Register.docs).map Row.id ++ (gs.flatMap Register.changes).map ChangeOp.id) := by
  induction gs with
  | nil => exact List.Subperm.refl _
  | cons g gs ih =>
    simp only [List.flatMap_cons, List.map_append]
    refine (List.Subperm.append (subperm_register g) ih).trans (List.Perm.subperm ?_)
    rw [List.append_assoc, List.append_assoc]
    apply List.Perm.append_left
    rw [← List.append_assoc, ← List.append_assoc]
    exact List.perm_append_comm.append_right _

theorem docs_listRegisters (ops : List (ChangeOp A)) (rows : List (Row A)) :
    (listRegisters ops rows).flatMap Register.docs = rows := by
  obtain ⟨-, hdocs⟩ := walkList_registers ops (elements rows).2
    (insertsAt ops none).reverse fun c hc => mem_insertsAt (List.mem_reverse.mp hc)
  have hbefore : (Register.walked ((elements rows).1.map fun r =>
      .doc r (predsOf ops r.id))).docs = (elements rows).1 := by
    show ((elements rows).1.map fun r => Entry.doc r (predsOf ops r.id)).filterMap Entry.doc? = _
    rw [List.filterMap_map]
    exact List.filterMap_some
  unfold listRegisters
  dsimp only
  rw [List.flatMap_cons, hbefore, hdocs, elements_rows]

theorem flatMap_mapRegisters {B : Type} {f : Register A → List B} {f' : Entry A → Option B}
    (hf : ∀ es, f (.walked es) = es.filterMap f') (es : List (Entry A)) :
    (mapRegisters es).flatMap f = es.filterMap f' := by
  have hgroups : ∀ gs : List (List (Entry A)), (gs.map Register.walked).flatMap f =
      gs.flatten.filterMap f' := by
    intro gs
    induction gs with
    | nil => rfl
    | cons g gs ih =>
      rw [List.map_cons, List.flatMap_cons, hf, ih, List.flatten_cons, List.filterMap_append]
  have h := hgroups (es.splitBy fun a b => a.key = b.key)
  rwa [List.flatten_splitBy] at h

/-- The ids behind a batch are those of the rows and those of the batch, each once. -/
theorem subperm_applyObj {t : Option ObjType} {ops : List (ChangeOp A)} {rows rows' : List (Row A)}
    (heq : applyObj t ops rows = some rows') :
    (rows'.map Row.id).Subperm (rows.map Row.id ++ ops.map ChangeOp.id) := by
  have hlist : ∀ {rows'}, (if ((listRegisters ops rows).flatMap Register.changes).Perm ops then
      some ((listRegisters ops rows).flatMap Register.rows) else none) = some rows' →
      (rows'.map Row.id).Subperm (rows.map Row.id ++ ops.map ChangeOp.id) := by
    intro rows' heq
    by_cases hperm : ((listRegisters ops rows).flatMap Register.changes).Perm ops
    · rw [if_pos hperm, Option.some.injEq] at heq
      subst heq
      have hsub := subperm_registers (listRegisters ops rows)
      rw [docs_listRegisters] at hsub
      exact hsub.trans ((hperm.map _).append_left _).subperm
    · rw [if_neg hperm] at heq
      cases heq
  unfold applyObj at heq
  split at heq
  · cases heq
    have hall := mergeMap_all ops ops rows none
    generalize mergeMap ops rows none ops = reply at hall
    obtain ⟨es, rest⟩ := reply
    obtain ⟨hdocs, hchanges⟩ := hall
    dsimp only at hdocs hchanges ⊢
    have hsub := subperm_registers (mapRegisters es)
    have hregisters : (mapRegisters es).flatMap Register.docs = es.filterMap Entry.doc? :=
      flatMap_mapRegisters (fun es => rfl) es
    rw [hregisters, flatMap_mapRegisters Register.changes_walked, hchanges] at hsub
    rw [List.map_append, ← hdocs, List.map_append]
    refine (List.Subperm.append hsub (List.Subperm.refl _)).trans (List.Perm.subperm ?_)
    rw [List.append_assoc, List.append_assoc]
    exact List.perm_append_comm.append_left _
  · exact hlist heq
  · exact hlist heq
  · cases heq

end AutomergeR
