import AutomergeR.LoggedCalls
import AutomergeR.MergedRows

/-! # What a merge does to the record

A batch of operations that name what is in the log or in the batch is applied to the end
(`applyBatch_succeeds`), and then the columns record the log with the batch added, each
operation once (`represents_applyBatch`) and in its place (`detailed_applyBatch`).
-/

namespace AutomergeR

variable {A : Type} [LinearOrder A]

/-- The log with the operations of a batch. -/
def Log.extend (S : Log A) (batch : List (OpId A × Op A)) : Log A := S ∪ {p | p ∈ batch}

/-- Operations that are new to a log, and name what is in the log or among them. -/
structure Log.Brings (S : Log A) (batch : List (OpId A × Op A)) : Prop where
  nodup : (batch.map Prod.fst).Nodup
  fresh : ∀ p ∈ batch, ∀ q ∈ S, q.1 ≠ p.1
  rooted : ∀ p ∈ batch, Rooted (S.extend batch) p

section

variable {s s' : OpSet A} {S : Log A} {batch : List (OpId A × Op A)} {obj : ObjId A} {t : ObjType}

omit [LinearOrder A] in
theorem Log.subset_extend : S ⊆ S.extend batch := Set.subset_union_left

theorem Log.Brings.wf (hb : S.Brings batch) (hS : S.WF) : (S.extend batch).WF where
  unique := by
    rintro p (hp | hp) q (hq | hq) heq
    · exact hS.unique p hp q hq heq
    · exact absurd heq (hb.fresh q hq p hp)
    · exact absurd heq.symm (hb.fresh p hp q hq)
    · exact List.inj_on_of_nodup_map hb.nodup hp hq heq
  rooted := by
    rintro p (hp | hp)
    · exact (hS.rooted p hp).mono Log.subset_extend
    · exact hb.rooted p hp

variable (h : Represents s S) (hS : S.WF) (hb : S.Brings batch)

omit [LinearOrder A] in
include h in
theorem made_withMade (id : OpId A) (t : ObjType) : (id, t) ∈ (s.withMade batch).objInfo ↔
    ∃ op, (id, op) ∈ S.extend batch ∧ op.action = .make t := by
  have hmake : ∀ op : Op A, op.action.objType? = some t ↔ op.action = .make t := by
    intro op
    cases op.action <;> simp [OpType.objType?]
  unfold OpSet.withMade
  rw [List.mem_append, h.made, List.mem_filterMap]
  constructor
  · rintro (⟨p, hp, hmade⟩ | ⟨op, hop, hact⟩)
    · obtain ⟨t', ht', heq⟩ := Option.map_eq_some_iff.mp hmade
      cases heq
      exact ⟨p.2, Or.inr hp, (hmake p.2).mp ht'⟩
    · exact ⟨op, Or.inl hop, hact⟩
  · rintro ⟨op, hop | hop, hact⟩
    · exact Or.inr ⟨op, hop, hact⟩
    · exact Or.inl ⟨(id, op), hop, by rw [(hmake op).mpr hact]; rfl⟩

include h hS hb

theorem objectType_withMade_iff : (s.withMade batch).objectType obj = some t ↔
    (S.extend batch).MadeAs obj t := objectType_iff (hb.wf hS) (made_withMade h)

/-! ## The batch of an object -/

omit h hS hb

/-- An operation of the batch is among those on its object. -/
theorem exists_orderOps {p : OpId A × Op A} (hp : p ∈ batch) :
    ∃ c ∈ orderOps batch p.2.obj, c.id = p.1 ∧ c.op = p.2 := by
  rw [orderOps_eq]
  refine ⟨_, List.mem_map_of_mem (a := ⟨p.1, p.2, []⟩) ?_, rfl, rfl⟩
  refine (List.perm_insertionSort _ _).symm.subset (List.mem_map.mpr ⟨p, ?_, rfl⟩)
  exact List.mem_filter.mpr ⟨hp, decide_eq_true rfl⟩

/-- In a sequence the operations come by their elements and ids. -/
theorem sorted_orderOps_seq
    (hkey : ∀ c ∈ orderOps batch obj, c.elemidOrKey = .seq (some c.element)) :
    (orderOps batch obj).Pairwise fun a b =>
      (toLex (a.element, a.id) : OpId A ×ₗ OpId A) ≤ toLex (b.element, b.id) := by
  refine sorted_orderOps (fun c succ => rfl) fun a ha b hb => ?_
  rw [Prod.Lex.le_iff]
  unfold keyLE
  rw [hkey a ha, hkey b hb]
  exact decide_eq_true_iff

omit [LinearOrder A] in
/-- The insertions of a sequence make its elements. -/
theorem mem_elementIds {rows : List (Row A)} {r : Row A} (hr : r ∈ rows) (hins : r.insert = true) :
    r.id ∈ elementIds rows := by
  induction rows with
  | nil => cases hr
  | cons x rows ih =>
    unfold elementIds at ih ⊢
    rw [elements_cons]
    rcases List.mem_cons.mp hr with rfl | hr
    · rw [if_pos hins]
      exact List.mem_cons_self
    · split
      · exact List.mem_cons_of_mem _ (ih hr)
      · exact ih hr

omit [LinearOrder A] in
theorem elementIds_sublist (rows : List (Row A)) : (elementIds rows).Sublist (rows.map Row.id) := by
  induction rows with
  | nil => exact .slnil
  | cons x rows ih =>
    unfold elementIds at ih ⊢
    rw [elements_cons, List.map_cons]
    split
    · exact ih.cons_cons x.id
    · exact ih.cons x.id

include h hb in
/-- What the batch brings is not among the rows. -/
theorem ids_batch {c : ChangeOp A} (hc : c ∈ orderOps batch obj) {o : ObjId A} {r : Row A}
    (hr : r ∈ s.rows o) : c.id ≠ r.id := by
  intro heq
  obtain ⟨q, hq, -, -, hrec⟩ := h.row o r hr
  exact hb.fresh _ (mem_orderOps hc).1 q hq (hrec.id.symm.trans heq.symm)

include h hS hb

theorem seqBatch_orderOps (ht : (S.extend batch).MadeAs obj t) (hseq : t.isSequence = true) :
    SeqBatch (orderOps batch obj) (elementIds (s.rows obj)) := by
  have hwf := hb.wf hS
  have hsuits : ∀ c ∈ orderOps batch obj, c.op.SuitsSeq t ∧ (c.id, c.op) ∈ batch ∧ c.op.obj = obj := by
    intro c hc
    obtain ⟨hmem, hobj, -⟩ := mem_orderOps hc
    exact ⟨hwf.suitsSeq (p := (c.id, c.op)) (hobj.symm ▸ ht) hseq (Or.inr hmem), hmem, hobj⟩
  have hkey : ∀ c ∈ orderOps batch obj, c.elemidOrKey = .seq (some c.element) := by
    intro c hc
    obtain ⟨hs, -, -⟩ := hsuits c hc
    cases hins : c.insert with
    | true =>
      rw [ChangeOp.element_insert hins]
      exact if_pos hins
    | false =>
      obtain ⟨e, hkey⟩ := hs.key
      cases e with
      | none => exact absurd hkey (hs.update hins).2
      | some e =>
        rw [ChangeOp.element_update hins hkey]
        exact (if_neg (Bool.eq_false_iff.mp hins)).trans hkey
  have hnd : ((orderOps batch obj).map ChangeOp.id).Nodup := nodup_orderOps hb.nodup
  refine ⟨List.nodup_append.mpr ⟨(h.nodup obj).sublist (elementIds_sublist _), hnd, ?_⟩, ?_,
    fun c hc => (hsuits c hc).1.key, fun c hc hins => ((hsuits c hc).1.update hins).2,
    fun c hc e he => ?_⟩
  · intro a ha b hb' hab
    obtain ⟨r, hr, rfl⟩ := List.mem_map.mp ((elementIds_sublist _).subset ha)
    obtain ⟨c, hc, rfl⟩ := List.mem_map.mp hb'
    exact ids_batch h hb hc hr hab.symm
  · refine List.Pairwise.imp₂ (fun {a b} hab hne => ?_) (sorted_orderOps_seq hkey)
      (List.pairwise_map.mp hnd)
    rcases Prod.Lex.le_iff.mp hab with hlt | ⟨heq, hle⟩
    · exact Or.inl hlt
    · exact Or.inr ⟨heq, lt_of_le_of_ne hle hne⟩
  · obtain ⟨-, hmem, hobj⟩ := hsuits c hc
    obtain ⟨hlt, q, hq, rfl, hqobj, hqins, -⟩ := (hwf.rooted _ (Or.inr hmem)).element e he
    have hqobj : q.2.obj = obj := hqobj.trans hobj
    refine ⟨hlt, ?_⟩
    rcases hq with hq | hq
    · left
      obtain ⟨r, hr, hrec⟩ := h.op q hq (by
        have hqs := hwf.suitsSeq (hqobj.symm ▸ ht) hseq (Or.inl hq)
        intro hdel
        rcases hqs.insertion hqins with hset | ⟨-, hm⟩
        · rw [hdel] at hset
          cases hset
        · rw [hdel] at hm
          cases hm)
      rw [← hrec.id]
      exact mem_elementIds (hqobj ▸ hr) (hrec.insert.trans hqins)
    · right
      obtain ⟨o, ho, hid, hop⟩ := exists_orderOps hq
      refine ⟨o, hqobj ▸ ho, ?_, hid⟩
      show o.op.insert = true
      rw [hop, hqins]

/-- **A merge is never broken off.** -/
theorem applyBatch_succeeds : ∃ s', s.applyBatch batch = some s' := by
  have hwf := hb.wf hS
  unfold OpSet.applyBatch
  dsimp only
  rw [if_pos]
  · exact ⟨_, rfl⟩
  · refine List.all_eq_true.mpr fun p hp => ?_
    obtain ⟨t, ht, hsuits⟩ := (hwf.rooted p (Or.inr hp)).typed
    rw [(objectType_withMade_iff h hS hb).mpr ht]
    cases t with
    | map => rfl
    | table => exact False.elim hsuits
    | list | text =>
      exact Option.isSome_iff_exists.mpr ⟨_, applyObj_sequence (seqBatch_orderOps h hS hb ht rfl) rfl⟩

/-! ## What is recorded -/

omit hS hb in
theorem keys_map (hwf : (S.extend batch).WF) (ht : (S.extend batch).MadeAs obj .map) :
    (∀ r ∈ s.rows obj, r.key = .map r.mapKey) ∧
      ∀ c ∈ orderOps batch obj, c.op.key = .map c.mapKey ∧ c.insert = false := by
  constructor
  · intro r hr
    obtain ⟨p, hp, hobj, -, hrec⟩ := h.row obj r hr
    have hsuits := hwf.suits (Log.subset_extend hp) (hobj.symm ▸ ht)
    obtain ⟨prop, hkey⟩ := Op.SuitsMap.key hsuits
    unfold Row.mapKey
    rw [hrec.key, hkey]
  · intro c hc
    obtain ⟨hmem, hobj, -⟩ := mem_orderOps hc
    have hsuits := hwf.suits (p := (c.id, c.op)) (Or.inr hmem) (hobj.symm ▸ ht)
    obtain ⟨prop, hkey⟩ := Op.SuitsMap.key hsuits
    refine ⟨?_, Op.SuitsMap.insert hsuits⟩
    have hkey : c.op.key = .map prop := hkey
    unfold ChangeOp.mapKey
    rw [hkey]

variable (heq : s.applyBatch batch = some s')

include heq

/-- What becomes of the rows of an object. -/
theorem passes_applyBatch {N : Row A → List (OpId A × Option ℤ) → Prop}
    (hnamed : ∀ r ∈ s.rows obj, N r (predsOf (orderOps batch obj) r.id))
    (hrest : (S.extend batch).MadeAs obj .map →
      ∀ r ∈ (mergeMap (orderOps batch obj) (s.rows obj) none (orderOps batch obj)).2, N r []) :
    Passes N (orderOps batch obj) (s.rows obj) (s'.rows obj) := by
  obtain ⟨-, hrows⟩ := applyBatch_rows heq
  rcases hrows obj with ⟨⟨p, hp, hobj⟩, hwalk⟩ | ⟨hno, hsame⟩
  · obtain ⟨t, ht, hsuits⟩ := ((hb.wf hS).rooted p (Or.inr hp)).typed
    rw [hobj] at ht
    rw [(objectType_withMade_iff h hS hb).mpr ht] at hwalk
    cases t with
    | map => exact passes_map hnamed (hrest ht) hwalk
    | table => exact False.elim hsuits
    | list | text =>
      have hpasses := passes_sequence (seqBatch_orderOps h hS hb ht rfl) rfl hwalk
      refine ⟨fun new hnew => ?_, hpasses.doc, hpasses.change⟩
      rcases hpasses.row new hnew with ⟨r, hr, tops, preds, rfl, hrow⟩ | hchange
      · exact Or.inl ⟨r, hr, tops, _, hnamed r hr, hrow⟩
      · exact Or.inr hchange
  · have hnil : orderOps batch obj = [] := List.eq_nil_iff_forall_not_mem.mpr fun c hc =>
      hno _ (mem_orderOps hc).1 (mem_orderOps hc).2.1
    rw [hnil] at hnamed ⊢
    rw [hsame]
    exact ⟨fun r hr => Or.inl ⟨r, hr, .start, [], hnamed r hr, rfl⟩,
      fun r hr => ⟨.start, [], hr⟩, List.forall_mem_nil _⟩

/-- **A merge loses no operation and adds none.** -/
theorem represents_applyBatch : Represents s' (S.extend batch) := by
  obtain ⟨hinfo, hrows⟩ := applyBatch_rows heq
  have hpasses : ∀ obj, Passes (fun _ _ => True) (orderOps batch obj) (s.rows obj) (s'.rows obj) :=
    fun obj => passes_applyBatch h hS hb heq (fun _ _ => trivial) fun _ _ _ => trivial
  refine ⟨fun obj => ?_, fun obj new hnew => ?_, fun p hp hdel => ?_, fun id t => ?_⟩
  · rcases hrows obj with ⟨-, hwalk⟩ | ⟨-, hsame⟩
    · obtain ⟨l, hperm, hsub⟩ := subperm_applyObj hwalk
      refine hperm.nodup_iff.mp (List.Nodup.sublist hsub (List.nodup_append.mpr
        ⟨h.nodup obj, nodup_orderOps hb.nodup, fun a ha b hb' hab => ?_⟩))
      obtain ⟨r, hr, rfl⟩ := List.mem_map.mp ha
      obtain ⟨c, hc, rfl⟩ := List.mem_map.mp hb'
      exact ids_batch h hb hc hr hab.symm
    · rw [hsame]
      exact h.nodup obj
  · rcases (hpasses obj).row new hnew with ⟨r, hr, tops, preds, -, rfl⟩ | ⟨c, hc, hdel, conflicted, rfl⟩
    · obtain ⟨p, hp, hobj, hdel, hrec⟩ := h.row obj r hr
      refine ⟨p, Or.inl hp, hobj, hdel, ?_, ?_, ?_, ?_⟩
      · simpa using hrec.id
      · simpa using hrec.key
      · simpa using hrec.insert
      · simpa using hrec.action
    · obtain ⟨hmem, hobj, -⟩ := mem_orderOps hc
      exact ⟨(c.id, c.op), Or.inr hmem, hobj, hdel, rfl, rfl, rfl, rfl⟩
  · rcases hp with hp | hp
    · obtain ⟨r, hr, hrec⟩ := h.op p hp hdel
      obtain ⟨tops, preds, hmem⟩ := (hpasses p.2.obj).doc r hr
      refine ⟨_, hmem, ?_, ?_, ?_, ?_⟩
      · simpa using hrec.id
      · simpa using hrec.key
      · simpa using hrec.insert
      · simpa using hrec.action
    · obtain ⟨c, hc, hid, hop⟩ := exists_orderOps hp
      obtain ⟨conflicted, hmem⟩ := (hpasses p.2.obj).change c hc (hop ▸ hdel)
      exact ⟨_, hmem, hid, congrArg Op.key hop, congrArg Op.insert hop, congrArg Op.action hop⟩
  · rw [hinfo]
    exact made_withMade h id t

omit heq h hS hb

/-! ## Successors -/

theorem mem_predsOf_iff {ops : List (ChangeOp A)} {id : OpId A} {x : OpId A × Option ℤ} :
    x ∈ predsOf ops id ↔ ∃ c ∈ ops, id ∈ c.op.pred ∧ x = (c.id, c.op.action.getIncrementValue) := by
  refine ⟨mem_predsOf, ?_⟩
  rintro ⟨c, hc, hpred, rfl⟩
  refine List.mem_flatMap.mpr ⟨c, hc, List.mem_map.mpr ⟨id, ?_, rfl⟩⟩
  exact List.mem_filter.mpr ⟨hpred, decide_eq_true rfl⟩

theorem nodup_predsOf {ops : List (ChangeOp A)} (hnd : (ops.map ChangeOp.id).Nodup)
    (hpred : ∀ c ∈ ops, c.op.pred.Nodup) (id : OpId A) : ((predsOf ops id).map Prod.fst).Nodup := by
  have hfst : (predsOf ops id).map Prod.fst =
      ops.flatMap fun c => List.replicate (c.op.pred.count id) c.id := by
    unfold predsOf
    rw [List.map_flatMap]
    refine List.flatMap_congr fun c _ => ?_
    rw [List.map_map, List.filter_eq, List.map_replicate]
    rfl
  rw [hfst]
  refine List.nodup_flatMap.mpr ⟨fun c hc => ?_, (List.pairwise_map.mp hnd).imp fun {c d} hne => ?_⟩
  · exact List.nodup_replicate.mpr (List.nodup_iff_count_le_one.mp (hpred c hc) id)
  · intro x hx hx'
    rw [List.eq_of_mem_replicate hx] at hx'
    exact hne (List.eq_of_mem_replicate hx')

/-- The successors of a row that is passed, counters apart from the rest. -/
theorem foldl_addSucc_perm (preds : List (OpId A × Option ℤ)) : ∀ r : Row A,
    (∀ x ∈ preds, x.2.isSome = true → r.action.isCounter = true) →
    (preds.foldl Row.addSucc r).succ.Perm (preds ++ r.succ) := by
  induction preds with
  | nil => exact fun _ _ => List.Perm.refl _
  | cons x preds ih =>
    intro r hinc
    rw [List.foldl_cons]
    refine (ih _ fun y hy hsome => ?_).trans ?_
    · rw [Row.addSucc_action]
      exact hinc y (List.mem_cons_of_mem x hy) hsome
    · refine ((r.addSucc_perm x).append_left preds).trans ?_
      have hx : (if r.action.isCounter then x.2 else none) = x.2 := by
        cases hs : x.2 with
        | none => exact ite_self _
        | some n => rw [hinc x List.mem_cons_self (by rw [hs]; rfl), if_pos rfl]
      rw [hx]
      exact List.perm_middle

omit [LinearOrder A] in
/-- A mark has no width. -/
theorem width_mark {action : OpType} (h : action.isMark = true) : action.width = 0 := by
  unfold OpType.width OpType.asStr
  rw [h]
  rfl

/-- What is overwritten has no width. -/
theorem foldl_addSucc_text : ∀ (preds : List (OpId A × Option ℤ)) (r : Row A),
    (∀ x ∈ preds, x.2 = none) → r.text = none ∨ preds ≠ [] → (preds.foldl Row.addSucc r).text = none
  | [], r, _, h => h.resolve_right fun hne => hne rfl
  | x :: preds, r, hnone, _ => by
    refine foldl_addSucc_text preds (r.addSucc x) (fun y hy => hnone y (List.mem_cons_of_mem x hy))
      (Or.inl ?_)
    simp [Row.addSucc, hnone x List.mem_cons_self]

theorem foldl_addSucc_widthOf (preds : List (OpId A × Option ℤ)) : ∀ r : Row A, r.WidthOf →
    (preds.foldl Row.addSucc r).WidthOf := by
  induction preds with
  | nil => exact fun r hr => hr
  | cons x preds ih => exact fun r hr => ih _ (hr.addSucc x)

/-! ## Details -/

variable (hd : Detailed s S) (hplain : (S.extend batch).Plain)

include h hS hb

omit h in
/-- What an operation of the batch names as a predecessor is of the same object. -/
theorem pred_orderOps {c : ChangeOp A} (hc : c ∈ orderOps batch obj) {id : OpId A}
    (hid : id ∈ c.op.pred) : ∃ q ∈ S.extend batch, q.1 = id ∧ q.2.obj = obj ∧
      ∀ prop, c.op.key = .map prop → q.2.key = .map prop := by
  obtain ⟨hmem, hobj, -⟩ := mem_orderOps hc
  obtain ⟨-, q, hq, hqid, hqobj, -, hkey⟩ := ((hb.wf hS).rooted _ (Or.inr hmem)).pred id hid
  exact ⟨q, hq, hqid, hqobj.trans hobj, hkey⟩

omit h hS hb in
/-- An increment of the batch names counters. -/
theorem counter_predsOf (hplain : (S.extend batch).Plain) (obj : ObjId A) {q : OpId A × Op A}
    (hq : q ∈ S.extend batch) : ∀ x ∈ predsOf (orderOps batch obj) q.1,
      x.2.isSome = true → q.2.action.isCounter = true := by
  intro x hx hsome
  obtain ⟨c, hc, hpred, rfl⟩ := mem_predsOf_iff.mp hx
  obtain ⟨hmem, -, -⟩ := mem_orderOps hc
  refine (hplain (c.id, c.op) (Or.inr hmem) ?_).2 q hq hpred
  show c.op.action.isIncrement = true
  cases hact : c.op.action with
  | increment n => rfl
  | make | delete | put | markBegin | markEnd =>
    rw [hact] at hsome
    cases hsome

theorem order_before (hd : Detailed s S) (ht : (S.extend batch).MadeAs obj t) :
    RowsInOrder t (s.rows obj) := by
  rcases h.known_or_empty hS (hb.wf hS) Log.subset_extend ht with ht | hnil
  · exact hd.order obj t ht
  · rw [hnil]
    exact RowsInOrder.nil t

/-- Nothing of the batch names a row that the walk of a map does not get to. -/
theorem predsOf_rest (hd : Detailed s S) (ht : (S.extend batch).MadeAs obj .map) :
    ∀ r ∈ (mergeMap (orderOps batch obj) (s.rows obj) none (orderOps batch obj)).2,
      [] = predsOf (orderOps batch obj) r.id := by
  intro r hr
  obtain ⟨hkeys, hops⟩ := keys_map h (hb.wf hS) ht
  have hsorted := sorted_orderOps_map hops
  have hlast := (rest_mergeMap (orderOps batch obj) (orderOps batch obj) none hkeys
    (order_before h hS hb hd ht) (fun c hc => (hops c hc).1)
    (hsorted.imp fun {a b} hab => Prod.Lex.monotone_fst _ _ hab) nofun r hr).1
  have hmem : r ∈ s.rows obj := by
    rw [← (mergeMap_all (orderOps batch obj) (orderOps batch obj) (s.rows obj) none).1]
    exact List.mem_append_right _ hr
  refine (List.eq_nil_iff_forall_not_mem.mpr fun x hx => ?_).symm
  obtain ⟨c, hc, hpred, -⟩ := mem_predsOf_iff.mp hx
  obtain ⟨q, hq, hqid, -, hkey⟩ := pred_orderOps hS hb hc hpred
  obtain ⟨p, hp, -, -, hrec⟩ := h.row obj r hmem
  have hqp := (hb.wf hS).unique q hq p (Or.inl hp) (hqid.trans hrec.id)
  have hrkey : r.key = .map c.mapKey := by
    rw [hrec.key, ← hqp]
    exact hkey _ (hops c hc).1
  have hsame : r.mapKey = c.mapKey := by
    unfold Row.mapKey
    rw [hrkey]
  exact lt_irrefl _ (hsame ▸ hlast c hc)

theorem passes_named (heq : s.applyBatch batch = some s') (hd : Detailed s S) (obj : ObjId A) :
    Passes (fun r preds => preds = predsOf (orderOps batch obj) r.id) (orderOps batch obj)
      (s.rows obj) (s'.rows obj) :=
  passes_applyBatch h hS hb heq (fun _ _ => rfl) fun ht => predsOf_rest h hS hb hd ht

include heq hd hplain

theorem succ_applyBatch : ∀ obj, ∀ r ∈ s'.rows obj, r.SuccOf (S.extend batch) := by
  intro obj new hnew
  have hwf := hb.wf hS
  -- the operations of the batch that name an operation on the object
  have hmem : ∀ q ∈ S.extend batch, q.2.obj = obj → ∀ x, x ∈ predsOf (orderOps batch obj) q.1 ↔
      ∃ p ∈ batch, q.1 ∈ p.2.pred ∧ x = (p.1, p.2.action.getIncrementValue) := by
    intro q hq hqobj x
    rw [mem_predsOf_iff]
    constructor
    · rintro ⟨c, hc, hpred, rfl⟩
      exact ⟨(c.id, c.op), (mem_orderOps hc).1, hpred, rfl⟩
    · rintro ⟨p, hp, hpred, rfl⟩
      obtain ⟨-, q', hq', hqid', hqobj', -⟩ := (hwf.rooted p (Or.inr hp)).pred q.1 hpred
      have hqq := hwf.unique q' hq' q hq hqid'
      obtain ⟨c, hc, hid, hop⟩ := exists_orderOps hp
      rw [← hqobj', hqq, hqobj] at hc
      exact ⟨c, hc, hop ▸ hpred, by rw [hid, hop]⟩
  have hpnd : ∀ id, ((predsOf (orderOps batch obj) id).map Prod.fst).Nodup :=
    nodup_predsOf (nodup_orderOps hb.nodup) fun c hc => (hwf.rooted _ (Or.inr (mem_orderOps hc).1)).nodup
  rcases (passes_named h hS hb heq hd obj).row new hnew with
    ⟨r, hr, tops, preds, rfl, rfl⟩ | ⟨c, hc, hdel, conflicted, rfl⟩
  · obtain ⟨p, hp, hpobj, -, hrec⟩ := h.row obj r hr
    have hold := hd.succ obj r hr
    have hmem := hmem p (Or.inl hp) hpobj
    rw [← hrec.id] at hmem
    have hperm : ((predsOf (orderOps batch obj) r.id).foldl Row.addSucc (tops.adjust r)).succ.Perm
        (predsOf (orderOps batch obj) r.id ++ r.succ) := by
      rw [← Tops.adjust_succ tops r]
      refine foldl_addSucc_perm _ _ fun x hx hsome => ?_
      rw [hrec.id] at hx
      rw [Tops.adjust_action, hrec.action]
      exact counter_predsOf hplain obj (Or.inl hp) x hx hsome
    refine ⟨(hperm.map Prod.fst).nodup_iff.mpr ?_, fun x => ?_⟩
    · rw [List.map_append, List.nodup_append]
      refine ⟨hpnd r.id, hold.nodup, fun a ha b hb' hab => ?_⟩
      obtain ⟨x, hx, rfl⟩ := List.mem_map.mp ha
      obtain ⟨y, hy, rfl⟩ := List.mem_map.mp hb'
      obtain ⟨p', hp', -, rfl⟩ := (hmem x).mp hx
      obtain ⟨q, hq, -, rfl⟩ := (hold.mem y).mp hy
      exact hb.fresh p' hp' q hq hab.symm
    · rw [hperm.mem_iff, List.mem_append, hmem, hold.mem, foldl_addSucc_id, Tops.adjust_id]
      constructor
      · rintro (⟨p', hp', hrest⟩ | ⟨q, hq, hrest⟩)
        · exact ⟨p', Or.inr hp', hrest⟩
        · exact ⟨q, Or.inl hq, hrest⟩
      · rintro ⟨p', hp' | hp', hrest⟩
        · exact Or.inr ⟨p', hp', hrest⟩
        · exact Or.inl ⟨p', hp', hrest⟩
  · obtain ⟨hcmem, hcobj, hsucc⟩ := mem_orderOps hc
    have hmem := hmem (c.id, c.op) (Or.inr hcmem) hcobj
    refine ⟨?_, fun x => ?_⟩
    · show (c.succ.map Prod.fst).Nodup
      rw [hsucc]
      exact hpnd c.id
    · show x ∈ c.succ ↔ ∃ p ∈ S.extend batch, c.id ∈ p.2.pred ∧ _
      rw [hsucc, hmem]
      constructor
      · rintro ⟨p, hp, hrest⟩
        exact ⟨p, Or.inr hp, hrest⟩
      · rintro ⟨p, hp | hp, hpred, hx⟩
        · -- what is in the log already names nothing of the batch
          obtain ⟨-, q, hq, hqid, -⟩ := (hS.rooted p hp).pred c.id hpred
          exact absurd hqid (hb.fresh _ hcmem q hq)
        · exact ⟨p, hp, hpred, hx⟩

theorem indexed_applyBatch : ∀ obj, ∀ r ∈ s'.rows obj, r.Indexed := by
  intro obj new hnew
  rcases (passes_named h hS hb heq hd obj).row new hnew with
    ⟨r, hr, tops, preds, -, rfl⟩ | ⟨c, hc, hdel, conflicted, rfl⟩
  · exact (Tops.indexed_adjust (hd.indexed obj r hr) tops).foldl_addSucc
  · obtain ⟨hmem, -, hsucc⟩ := mem_orderOps hc
    refine ChangeOp.indexed_toRow (fun x hx => ?_) hdel conflicted
    rw [hsucc] at hx
    exact counter_predsOf hplain obj (q := (c.id, c.op)) (Or.inr hmem) x hx

omit hplain in
theorem order_applyBatch (ht : (S.extend batch).MadeAs obj t) : RowsInOrder t (s'.rows obj) := by
  have hwf := hb.wf hS
  have hbefore := order_before h hS hb hd ht
  have hids : ∀ c ∈ orderOps batch obj, ∀ r ∈ s.rows obj, c.id ≠ r.id := fun c hc r hr =>
    ids_batch h hb hc hr
  obtain ⟨-, hrows⟩ := applyBatch_rows heq
  rcases hrows obj with ⟨-, hwalk⟩ | ⟨-, hsame⟩
  · rw [(objectType_withMade_iff h hS hb).mpr ht] at hwalk
    have hseq : ∀ t, (S.extend batch).MadeAs obj t → t.isSequence = true →
        applyObj (some t) (orderOps batch obj) (s.rows obj) = some (s'.rows obj) →
        SeqRows (s.rows obj) → SeqRows (s'.rows obj) := by
      intro t ht hseq hwalk hbefore
      have hbatch := seqBatch_orderOps h hS hb ht hseq
      rw [applyObj_sequence hbatch hseq] at hwalk
      rw [← Option.some.inj hwalk]
      refine seqRows_registers hbatch hbefore (fun c hc hins hdel => ?_) hids
      obtain ⟨hmem, hobj, -⟩ := mem_orderOps hc
      have hsuits := hwf.suitsSeq (p := (c.id, c.op)) (hobj.symm ▸ ht) hseq (Or.inr hmem)
      rcases hsuits.insertion hins with hset | ⟨-, hmark⟩
      · rw [hdel] at hset
        cases hset
      · rw [hdel] at hmark
        cases hmark
    cases t with
    | map =>
      obtain ⟨hkeys, hops⟩ := keys_map h hwf ht
      refine mapOrder_applyObj hbefore hkeys (fun c hc => (hops c hc).1) hids ?_ hwalk
      refine List.Pairwise.imp₂ (fun {a b} hab hne => ?_) (sorted_orderOps_map hops)
        (List.pairwise_map.mp (nodup_orderOps hb.nodup))
      refine lt_of_le_of_ne hab fun heq => hne ?_
      exact congrArg (fun x : String ×ₗ OpId A => (ofLex x).2) heq
    | table => exact absurd ht hwf.no_table
    | list => exact hseq .list ht rfl hwalk hbefore
    | text => exact hseq .text ht rfl hwalk hbefore
  · rw [hsame]
    exact hbefore

theorem text_applyBatch (ht : (S.extend batch).MadeAs obj .text) : TextIndexed (s'.rows obj) := by
  have hwf := hb.wf hS
  -- there are no increments in a text
  have hnone : ∀ id, ∀ x ∈ predsOf (orderOps batch obj) id, x.2 = none := by
    intro id x hx
    obtain ⟨c, hc, -, rfl⟩ := mem_predsOf_iff.mp hx
    obtain ⟨hmem, hobj, -⟩ := mem_orderOps hc
    have hsuits := hwf.suitsSeq (p := (c.id, c.op)) (hobj.symm ▸ ht) rfl (Or.inr hmem)
    cases hact : c.op.action with
    | increment n =>
      obtain ⟨⟨prop, hkey⟩, -⟩ := hplain (c.id, c.op) (Or.inr hmem) (by
        show c.op.action.isIncrement = true
        rw [hact]
        rfl)
      obtain ⟨e, hkey'⟩ := hsuits.key
      rw [show c.op.key = .map prop from hkey] at hkey'
      cases hkey'
    | make | delete | put | markBegin | markEnd => rfl
  intro new hnew hwidth
  rcases (passes_named h hS hb heq hd obj).row new hnew with
    ⟨r, hr, tops, preds, rfl, rfl⟩ | ⟨c, hc, hdel, conflicted, rfl⟩
  · have hr' : TextIndexed (s.rows obj) := by
      rcases h.known_or_empty hS hwf Log.subset_extend ht with ht | hnil
      · exact hd.text obj ht
      · rw [hnil] at hr
        cases hr
    rw [foldl_addSucc_action, Tops.adjust_action]
    generalize hpreds : predsOf (orderOps batch obj) r.id = preds at hwidth
    have hnone := hnone r.id
    rw [hpreds] at hnone
    cases preds with
    | nil =>
      rw [List.foldl_nil] at hwidth ⊢
      rw [Tops.adjust_text] at hwidth
      rw [Tops.adjust_succ]
      exact hr' r hr hwidth
    | cons x preds =>
      rw [foldl_addSucc_text _ _ hnone (Or.inr (List.cons_ne_nil x preds))] at hwidth
      exact absurd hwidth (lt_irrefl 0)
  · obtain ⟨-, -, hsucc⟩ := mem_orderOps hc
    have hwidth : 0 < if c.visible then c.op.action.width else 0 := hwidth
    split at hwidth
    · rename_i hvisible
      have hno : c.hasSucc = false := by
        unfold ChangeOp.visible at hvisible
        simp only [Bool.not_eq_true', Bool.or_eq_false_iff] at hvisible
        exact hvisible.2
      have hnil : c.succ = [] := by
        refine List.eq_nil_iff_forall_not_mem.mpr fun x hx => ?_
        have hx' := List.any_eq_false.mp hno x hx
        rw [hsucc] at hx
        rw [hnone c.id x hx] at hx'
        exact hx' rfl
      refine ⟨List.isEmpty_iff.mpr hnil, ?_⟩
      by_contra hmark
      rw [width_mark (Bool.not_eq_false _ ▸ hmark)] at hwidth
      exact lt_irrefl 0 hwidth
    · exact absurd hwidth (lt_irrefl 0)

omit hplain in
theorem width_applyBatch : ∀ obj, ∀ r ∈ s'.rows obj, r.WidthOf := by
  intro obj new hnew
  rcases (passes_named h hS hb heq hd obj).row new hnew with
    ⟨r, hr, tops, preds, -, rfl⟩ | ⟨c, -, hdel, conflicted, rfl⟩
  · refine foldl_addSucc_widthOf preds _ fun hinc => ?_
    have hr := hd.width obj r hr (by
      unfold Row.isInc at hinc ⊢
      rwa [Tops.adjust_action] at hinc)
    rw [Tops.adjust_text, Tops.adjust_action, Tops.adjust_visible]
    exact hr
  · intro hinc
    rfl

/-- **A merge puts every operation in its place.** -/
theorem detailed_applyBatch : Detailed s' (S.extend batch) where
  succ := succ_applyBatch h hS hb heq hd hplain
  indexed := indexed_applyBatch h hS hb heq hd hplain
  order _ _ ht := order_applyBatch h hS hb heq hd ht
  text _ ht := text_applyBatch h hS hb heq hd hplain ht
  width := width_applyBatch h hS hb heq hd

end

end AutomergeR
