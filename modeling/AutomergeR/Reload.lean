import AutomergeR.IndexBuilder
import AutomergeR.ReplicaReads

/-! # Loading what was saved

Where the columns record a log, the builder finds for each row the index entries that it had,
but for `top`, which is with the last visible row of every key or element whether or not it was
there before. So a document that is saved and loaded reads the same (`reads_of_reload`).
-/

namespace AutomergeR

variable {A : Type} [LinearOrder A]

/-! ## The objects -/

namespace OpSet

variable (s : OpSet A)

theorem objects_nodup : s.objects.Nodup := by
  refine List.nodup_cons.mpr ⟨by simp, ?_⟩
  refine List.Nodup.map (Option.some_injective _) ?_
  exact (List.perm_insertionSort (· ≤ ·) _).nodup_iff.mpr (List.nodup_dedup _)

theorem mem_objects {obj : ObjId A} : obj ∈ s.objects ↔ ∀ id ∈ obj, ∃ t, (id, t) ∈ s.objInfo := by
  cases obj with
  | none => simp [objects]
  | some id => simp [objects, List.mem_insertionSort]

theorem mem_docOps {op : DocOp A} : op ∈ s.docOps ↔
    ∃ obj ∈ s.objects, ∃ r ∈ s.rows obj, r.docOp obj = op := by
  simp [docOps]

/-- The operations of one object. -/
theorem filter_docOps {obj : ObjId A} (hobj : obj ∈ s.objects) :
    (s.docOps.filter fun op => op.obj = obj) = (s.rows obj).map fun r => r.docOp obj := by
  have hnd := s.objects_nodup
  unfold docOps
  rw [List.filter_flatMap]
  generalize s.objects = objs at hobj hnd
  have hself : ∀ o, ((s.rows o).map fun r => r.docOp o).filter (fun op => op.obj = obj) =
      if o = obj then (s.rows o).map fun r => r.docOp o else [] := by
    intro o
    split
    · rename_i ho
      exact List.filter_eq_self.mpr fun op hop => by
        obtain ⟨r, -, rfl⟩ := List.mem_map.mp hop
        exact decide_eq_true ho
    · rename_i ho
      exact List.filter_eq_nil_iff.mpr fun op hop => by
        obtain ⟨r, -, rfl⟩ := List.mem_map.mp hop
        exact fun hc => ho (of_decide_eq_true hc)
  induction objs with
  | nil => cases hobj
  | cons o objs ih =>
    obtain ⟨ho, hnd⟩ := List.nodup_cons.mp hnd
    rw [List.flatMap_cons, hself]
    rcases List.mem_cons.mp hobj with rfl | hobj
    · rw [if_pos rfl, List.flatMap_eq_nil_iff.mpr fun o' ho' => ?_, List.append_nil]
      rw [hself, if_neg]
      rintro rfl
      exact ho ho'
    · have hne : o ≠ obj := by
        rintro rfl
        exact ho hobj
      rw [if_neg hne, ih hobj hnd, List.nil_append]

end OpSet

/-! ## What is saved of columns that record a log -/

variable {s : OpSet A} {S : Log A} {obj obj' : ObjId A} {t : ObjType} {r r' : Row A}

section

variable (hS : S.WF) (h : Represents s S)

include hS h

theorem rows_made (hr : r ∈ s.rows obj) : ∃ t, S.MadeAs obj t := by
  obtain ⟨p, hp, rfl, -, -⟩ := h.row obj r hr
  obtain ⟨t, ht, -⟩ := (hS.rooted p hp).typed
  exact ⟨t, ht⟩

/-- What was not made has no rows. -/
theorem rows_eq_nil (ht : ¬ ∃ t, S.MadeAs obj t) : s.rows obj = [] :=
  List.eq_nil_iff_forall_not_mem.mpr fun _ hr => ht (rows_made hS h hr)

theorem mem_objects_of_row (hr : r ∈ s.rows obj) : obj ∈ s.objects := by
  refine s.mem_objects.mpr fun id hid => ?_
  obtain ⟨t, ht⟩ := rows_made hS h hr
  obtain rfl : obj = some id := hid
  exact ⟨t, (h.made id t).mpr ht⟩

theorem docOp_mem (hr : r ∈ s.rows obj) : r.docOp obj ∈ s.docOps :=
  s.mem_docOps.mpr ⟨obj, mem_objects_of_row hS h hr, r, hr, rfl⟩

theorem obj_unique (hr : r ∈ s.rows obj) (hr' : r' ∈ s.rows obj') (hid : r.id = r'.id) :
    obj = obj' := by
  obtain ⟨p, hp, hobj, -, hrec⟩ := h.row obj r hr
  obtain ⟨q, hq, hobj', -, hrec'⟩ := h.row obj' r' hr'
  rw [← hobj, ← hobj', hS.unique p hp q hq (hrec.id.symm.trans (hid.trans hrec'.id))]

theorem elemidOrKey_seq (ht : S.MadeAs obj t) (hseq : t.isSequence = true) (hr : r ∈ s.rows obj) :
    r.elemidOrKey = .seq r.cursor := by
  obtain ⟨p, hp, rfl, -, hrec⟩ := h.row obj r hr
  obtain ⟨e, hkey⟩ := (hS.suitsSeq ht hseq hp).key
  unfold Row.elemidOrKey Row.cursor
  split
  · rfl
  · rw [hrec.key, hkey]

theorem elemidOrKey_map (ht : S.MadeAs obj .map) (hr : r ∈ s.rows obj) :
    r.elemidOrKey = .map r.mapKey := by
  obtain ⟨p, hp, rfl, -, hrec⟩ := h.row obj r hr
  have hsuits : p.2.SuitsMap := hS.suits hp ht
  obtain ⟨prop, hkey⟩ := hsuits.key
  unfold Row.elemidOrKey Row.mapKey
  rw [hrec.insert, hsuits.insert, hrec.key, hkey]
  rfl

variable (hd : Detailed s S)

include hd

theorem rows_sorted (obj : ObjId A) :
    (s.rows obj).Pairwise fun x y => x.elemidOrKey = y.elemidOrKey → x.id < y.id := by
  by_cases ht : ∃ t, S.MadeAs obj t
  · obtain ⟨t, ht⟩ := ht
    have horder := hd.order obj t ht
    cases t with
    | map =>
      refine List.Pairwise.imp_of_mem (fun {x y} hx hy hxy heq => ?_) horder
      rw [elemidOrKey_map hS h ht hx, elemidOrKey_map hS h ht hy, Key.map.injEq] at heq
      rcases hxy with hlt | ⟨-, hlt⟩
      · exact absurd heq (ne_of_lt hlt)
      · exact hlt
    | table => exact absurd ht hS.no_table
    | list | text =>
      refine List.Pairwise.imp_of_mem (fun {x y} hx hy hxy heq => hxy ?_)
        (SeqRows.sorted_cursor horder (h.nodup obj))
      rw [elemidOrKey_seq hS h ht rfl hx, elemidOrKey_seq hS h ht rfl hy, Key.seq.injEq] at heq
      exact heq
  · rw [rows_eq_nil hS h ht]
    exact List.Pairwise.nil

/-- The rows of one key or element stand together. -/
theorem rows_grouped (obj : ObjId A) : Runs.Grouped Row.elemidOrKey (s.rows obj) := by
  by_cases ht : ∃ t, S.MadeAs obj t
  · obtain ⟨t, ht⟩ := ht
    have horder := hd.order obj t ht
    cases t with
    | map =>
      have hkeys : Runs.Grouped Row.mapKey (s.rows obj) := Runs.Grouped.of_sorted <|
        List.Pairwise.imp (fun {x y} hxy => hxy.elim le_of_lt fun heq => heq.1.le) horder
      have hmap : Runs.Grouped Row.elemidOrKey ((s.rows obj).map id) :=
        hkeys.map id (g := Key.map) (fun _ _ heq => Key.map.inj heq) fun r hr =>
          elemidOrKey_map hS h ht hr
      rwa [List.map_id] at hmap
    | table => exact absurd ht hS.no_table
    | list | text =>
      have hrows : SeqRows (s.rows obj) := horder
      refine ⟨(elements (s.rows obj)).2.map fun el => (.seq (some el.1.id), el.1 :: el.2),
        ⟨?_, fun run hrun x hx => ?_⟩, ?_⟩
      · rw [List.map_map]
        have hnd : ((elements (s.rows obj)).2.map fun el => el.1.id).Nodup :=
          (h.nodup obj).sublist (elementIds_sublist (s.rows obj))
        have hinj := hnd.map (f := fun id : OpId A => Key.seq (some id)) fun a b heq =>
          Option.some.inj (Key.seq.inj heq)
        rw [List.map_map] at hinj
        exact hinj
      · obtain ⟨el, hel, rfl⟩ := List.mem_map.mp hrun
        rw [elemidOrKey_seq hS h ht rfl (hrows.mem_rows hel x hx), (hrows.registers el hel).cursor x hx]
      · unfold Runs.elems
        rw [List.flatMap_map]
        exact hrows.flat_elements
  · rw [rows_eq_nil hS h ht]
    exact .nil

variable (hplain : S.Plain)

include hplain

/-- The operation that a successor names. -/
theorem exists_succ (hr : r ∈ s.rows obj) {id : OpId A} (hid : id ∈ r.succ.map Prod.fst) :
    ∃ p ∈ S, p.1 = id ∧ r.id ∈ p.2.pred ∧ p.2.obj = obj ∧ p.2.key = r.elemidOrKey := by
  obtain ⟨q, hq, rfl, -, hrec⟩ := h.row obj r hr
  obtain ⟨x, hx, rfl⟩ := List.mem_map.mp hid
  obtain ⟨p, hp, hpred, rfl⟩ := ((hd.succ _ r hr).mem x).mp hx
  obtain ⟨-, q', hq', hid, hobj, -⟩ := (hS.rooted p hp).pred r.id hpred
  obtain rfl := hS.unique q' hq' q hq (hid.trans hrec.id)
  obtain ⟨q'', hq'', hid', hkey⟩ := ((hS.rooted p hp).onKey hplain).pred r.id hpred
  obtain rfl := hS.unique q'' hq'' q' hq (hid'.trans hrec.id)
  refine ⟨p, hp, rfl, hpred, hobj.symm, hkey.symm.trans ?_⟩
  unfold Row.elemidOrKey Op.elemidOrKey
  rw [hrec.insert, hrec.id, hrec.key]

/-- A successor is an operation on the same key or element, and younger. -/
theorem succ_onKey (hr : r ∈ s.rows obj) (hr' : r' ∈ s.rows obj')
    (hsucc : r'.id ∈ r.succ.map Prod.fst) :
    obj' = obj ∧ r'.elemidOrKey = r.elemidOrKey ∧ r.id < r'.id := by
  obtain ⟨p, hp, hid, hpred, hobj, hkey⟩ := exists_succ hS h hd hplain hr hsucc
  obtain ⟨q, hq, rfl, -, hrec⟩ := h.row obj' r' hr'
  obtain rfl := hS.unique p hp q hq (hid.trans hrec.id)
  have hins : p.2.insert = false := Bool.eq_false_iff.mpr fun hins => by
    rw [((hS.rooted p hp).onKey hplain).insertion hins] at hpred
    cases hpred
  refine ⟨hobj, ?_, ?_⟩
  · rw [← hkey]
    unfold Row.elemidOrKey
    rw [hrec.insert, hins, hrec.key]
    rfl
  · rw [hrec.id]
    exact OpId.lt_of_counter ((hS.rooted p hp).pred r.id hpred).1

/-- What is saved is fit for the builder. -/
theorem docOps_successive : Successive s.docOps := by
  have hkeys : ∀ {r : Row A} {o : ObjId A}, (r.docOp o).runKey = (o, r.elemidOrKey) := rfl
  have hsorted : s.docOps.Pairwise fun x y => x.runKey = y.runKey → x.id < y.id := by
    unfold OpSet.docOps
    rw [List.pairwise_flatMap]
    refine ⟨fun o _ => List.pairwise_map.mpr (List.Pairwise.imp (fun {x y} hlt heq => ?_)
      (rows_sorted hS h hd o)), ?_⟩
    · rw [hkeys, hkeys, Prod.mk.injEq] at heq
      exact hlt heq.2
    · refine s.objects_nodup.imp fun {o o'} hne x hx y hy heq => ?_
      obtain ⟨r, -, rfl⟩ := List.mem_map.mp hx
      obtain ⟨r', -, rfl⟩ := List.mem_map.mp hy
      rw [hkeys, hkeys, Prod.mk.injEq] at heq
      exact absurd heq.1 hne
  have honKey : ∀ x ∈ s.docOps, ∀ y ∈ s.docOps, y.id ∈ x.succ → y.runKey = x.runKey ∧ x.id < y.id := by
    intro x hx y hy hsucc
    obtain ⟨o, -, r, hr, rfl⟩ := s.mem_docOps.mp hx
    obtain ⟨o', -, r', hr', rfl⟩ := s.mem_docOps.mp hy
    obtain ⟨rfl, hkey, hlt⟩ := succ_onKey hS h hd hplain hr hr' hsucc
    rw [hkeys, hkeys, hkey]
    exact ⟨rfl, hlt⟩
  refine ⟨?_, fun pre x post heq id hid hmem => ?_,
    fun x hx y hy hsucc => (honKey x hx y hy hsucc).1, hsorted⟩
  · unfold OpSet.docOps
    rw [List.map_flatMap, List.nodup_flatMap]
    refine ⟨fun o _ => ?_, s.objects_nodup.imp fun {o o'} hne => ?_⟩
    · rw [List.map_map]
      exact h.nodup o
    · intro id hid hid'
      dsimp only at hid hid'
      rw [List.map_map] at hid hid'
      obtain ⟨r, hr, rfl⟩ := List.mem_map.mp hid
      obtain ⟨r', hr', heq⟩ := List.mem_map.mp hid'
      exact hne (obj_unique hS h hr hr' heq.symm)
  · -- a successor that came before would be older
    obtain ⟨y, hy, rfl⟩ := List.mem_map.mp hmem
    have hall : ∀ z ∈ pre ++ [x], z ∈ s.docOps := fun z hz => by
      rw [heq]
      rw [List.mem_append, List.mem_singleton] at hz
      exact hz.elim (List.mem_append_left _) fun hz => hz ▸ List.mem_append_right _ List.mem_cons_self
    obtain ⟨hkey, hlt⟩ := honKey x (hall x (by simp)) y (hall y hy) hid
    rcases List.mem_append.mp hy with hy | hy
    · rw [heq] at hsorted
      exact lt_asymm hlt ((List.pairwise_append.mp hsorted).2.2 y hy x List.mem_cons_self hkey)
    · rw [List.mem_singleton.mp hy] at hlt
      exact lt_irrefl _ hlt

omit hplain in
theorem docOps_grouped : Runs.Grouped DocOp.runKey s.docOps := by
  have hrows := Runs.Grouped.flatMap s.objects_nodup fun o _ => rows_grouped hS h hd o
  have hops : Runs.Grouped DocOp.runKey ((s.objects.flatMap fun o =>
      (s.rows o).map fun r => (o, r)).map fun x => x.2.docOp x.1) :=
    hrows.map _ (g := id) (fun _ _ heq => heq) fun _ _ => rfl
  rw [List.map_flatMap] at hops
  simp only [List.map_map] at hops
  exact hops

/-! ## What is loaded -/

/-- The row is the last visible one of its key or element. -/
def Row.isLast (r : Row A) (rows : List (Row A)) : Bool :=
  r.visible && rows.all fun x => x.elemidOrKey ≠ r.elemidOrKey || x.id ≤ r.id || !x.visible

/-- A row with the index entries that the builder finds. -/
def Row.reindexed (r : Row A) (ops : List (DocOp A)) (obj : ObjId A) : Row A :=
  { r with
    top := IndexBuilder.isTop ops (r.docOp obj)
    text := if r.visible then some r.action.width else none }

/-- The amounts of the increments are found. -/
theorem incOf_docOps (hr : r ∈ s.rows obj) {x : OpId A × Option ℤ} (hx : x ∈ r.succ) :
    IndexBuilder.incOf s.docOps (r.docOp obj) x.1 = x.2 := by
  obtain ⟨p, hp, rfl, -, hrec⟩ := h.row obj r hr
  obtain ⟨q, hq, hpred, rfl⟩ := ((hd.succ _ r hr).mem x).mp hx
  unfold IndexBuilder.incOf
  have haction : (r.docOp p.2.obj).action = r.action := rfl
  rw [haction]
  cases hc : r.action.isCounter with
  | false =>
    -- increments name counters
    cases hact : q.2.action with
    | increment n =>
      have hcounter := (hplain q hq (by rw [hact]; rfl)).2 p hp (hrec.id ▸ hpred)
      rw [← hrec.action, hc] at hcounter
      cases hcounter
    | make | delete | put | markBegin | markEnd => rfl
  | true =>
    rw [if_pos rfl]
    cases hfind : s.docOps.find? fun y => y.id = q.1 with
    | some y =>
      obtain ⟨o, -, r', hr', rfl⟩ := s.mem_docOps.mp (List.mem_of_find?_eq_some hfind)
      have hid : (r'.docOp o).id = q.1 := by simpa using List.find?_some hfind
      obtain ⟨q', hq', -, -, hrec'⟩ := h.row o r' hr'
      obtain rfl := hS.unique q' hq' q hq (hrec'.id.symm.trans hid)
      show r'.action.getIncrementValue = _
      rw [hrec'.action]
    | none =>
      -- what is not there is a deletion
      by_cases hdel : q.2.action = .delete
      · rw [hdel]
        rfl
      · obtain ⟨r', hr', hrec'⟩ := h.op q hq hdel
        have hmem := docOp_mem hS h hr'
        exact absurd (decide_eq_true hrec'.id) (List.find?_eq_none.mp hfind _ hmem)

theorem left_docOps (hr : r ∈ s.rows obj) :
    decide (IndexBuilder.left s.docOps (r.docOp obj) = 0) = r.visible := by
  have hinc : ∀ x ∈ r.succ, IndexBuilder.incOf s.docOps (r.docOp obj) x.1 = x.2 :=
    fun x hx => incOf_docOps hS h hd hplain hr hx
  have hcount : (r.docOp obj).succ.countP (fun id =>
      (IndexBuilder.incOf s.docOps (r.docOp obj) id).isNone) = r.succ.countP fun x => x.2.isNone := by
    show (r.succ.map Prod.fst).countP _ = _
    rw [List.countP_map]
    exact List.countP_congr fun x hx => by simp [hinc x hx]
  have hindexed : r.visible = (!r.isInc && r.unhidden) := hd.indexed obj r hr
  rw [hindexed]
  unfold IndexBuilder.left
  rw [hcount]
  show decide ((if r.isInc then u32Max else _) = 0) = _
  cases r.isInc with
  | true => rfl
  | false =>
    unfold Row.unhidden
    rw [if_neg Bool.false_ne_true, Bool.not_false, Bool.true_and, Bool.eq_iff_iff, decide_eq_true_iff,
      List.countP_eq_zero]
    split
    · rw [List.all_eq_true]
      exact forall₂_congr fun x _ => by cases x.2 <;> simp
    · rename_i hc
      rw [List.isEmpty_iff, List.eq_nil_iff_forall_not_mem]
      refine forall₂_congr fun x hx => ?_
      have hnone : x.2 = none := by
        rw [← hinc x hx]
        exact if_neg hc
      simp [hnone]

/-- **The rows are loaded as they were**, but for the index. -/
theorem rows_reload (obj : ObjId A) :
    s.reload.rows obj = (s.rows obj).map fun r => r.reindexed s.docOps obj := by
  have hrows := (build_spec (docOps_successive hS h hd hplain) (docOps_grouped hS h hd)).1
  have hfilter : (s.docOps.filter fun op => op.obj = obj) = (s.rows obj).map fun r => r.docOp obj := by
    by_cases hobj : obj ∈ s.objects
    · exact s.filter_docOps hobj
    · have hnil : s.rows obj = [] :=
        List.eq_nil_iff_forall_not_mem.mpr fun r hr => hobj (mem_objects_of_row hS h hr)
      rw [hnil]
      refine List.filter_eq_nil_iff.mpr fun op hop hc => ?_
      obtain ⟨o, ho, r, -, rfl⟩ := s.mem_docOps.mp hop
      obtain rfl : o = obj := of_decide_eq_true hc
      exact hobj ho
  have hzip := @List.zip_map' _ _ _ id
    (fun op => IndexBuilder.entry s.docOps (IndexBuilder.isTop s.docOps op) op) s.docOps
  rw [List.map_id] at hzip
  unfold OpSet.reload OpSet.ofDocOps
  dsimp only
  rw [hrows, hzip, List.filter_map, List.map_map]
  show (s.docOps.filter fun op => op.obj = obj).map _ = _
  rw [hfilter, List.map_map]
  refine List.map_congr_left fun r hr => ?_
  have hsucc : (r.succ.map Prod.fst).zip ((r.succ.map Prod.fst).map
      (IndexBuilder.incOf s.docOps (r.docOp obj))) = r.succ := by
    rw [List.map_map, List.zip_map']
    refine (List.map_congr_left fun x hx => ?_).trans (List.map_id _)
    exact Prod.ext rfl (incOf_docOps hS h hd hplain hr hx)
  have hleft := left_docOps hS h hd hplain hr
  have htext : (if IndexBuilder.left s.docOps (r.docOp obj) = 0 then some r.action.width else none) =
      if r.visible then some r.action.width else none := by
    simp only [← hleft, decide_eq_true_eq]
  show Row.mk r.id r.key r.insert r.action
      ((r.succ.map Prod.fst).zip ((r.succ.map Prod.fst).map (IndexBuilder.incOf s.docOps (r.docOp obj))))
      (decide (IndexBuilder.left s.docOps (r.docOp obj) = 0)) (IndexBuilder.isTop s.docOps (r.docOp obj))
      (if IndexBuilder.left s.docOps (r.docOp obj) = 0 then some r.action.width else none) = _
  rw [hsucc, hleft, htext]
  rfl

/-- `top` is with the last visible row of every key or element. -/
theorem isTop_docOps (hr : r ∈ s.rows obj) :
    IndexBuilder.isTop s.docOps (r.docOp obj) = r.isLast (s.rows obj) := by
  have hcond : ∀ x ∈ s.rows obj, (decide ((x.docOp obj).runKey ≠ (r.docOp obj).runKey) ||
      decide ((x.docOp obj).id ≤ (r.docOp obj).id) ||
        decide (IndexBuilder.left s.docOps (x.docOp obj) ≠ 0)) =
      (decide (x.elemidOrKey ≠ r.elemidOrKey) || decide (x.id ≤ r.id) || !x.visible) := by
    intro x hx
    have hkeys : (x.docOp obj).runKey = (r.docOp obj).runKey ↔ x.elemidOrKey = r.elemidOrKey := by
      show (obj, x.elemidOrKey) = (obj, r.elemidOrKey) ↔ _
      simp
    rw [← left_docOps hS h hd hplain hx, decide_not (p := _ = 0),
      decide_eq_decide.mpr (not_congr hkeys)]
    rfl
  unfold IndexBuilder.isTop Row.isLast
  rw [left_docOps hS h hd hplain hr]
  congr 1
  rw [Bool.eq_iff_iff, List.all_eq_true, List.all_eq_true]
  constructor
  · intro hall x hx
    rw [← hcond x hx]
    exact hall _ (docOp_mem hS h hx)
  · intro hall op hop
    obtain ⟨o, -, x, hx, rfl⟩ := s.mem_docOps.mp hop
    by_cases ho : o = obj
    · subst ho
      rw [hcond x hx]
      exact hall x hx
    · have hne : (x.docOp o).runKey ≠ (r.docOp obj).runKey := fun heq => ho (Prod.mk.inj heq).1
      rw [decide_eq_true hne, Bool.true_or, Bool.true_or]

/-- What the builder finds, said of the rows that were saved. -/
theorem rows_reload_isLast (obj : ObjId A) :
    s.reload.rows obj = (s.rows obj).map fun r =>
      { r with
        top := r.isLast (s.rows obj)
        text := if r.visible then some r.action.width else none } := by
  rw [rows_reload hS h hd hplain]
  refine List.map_congr_left fun r hr => ?_
  rw [← isTop_docOps hS h hd hplain hr]
  rfl

/-- The index of a list is right. -/
theorem along_reload (ht : S.MadeAs obj .list) : OpSet.Along Named (s.reload.rows obj) := by
  have hrows : SeqRows (s.rows obj) := hd.order obj .list ht
  rw [rows_reload hS h hd hplain]
  have hflat := hrows.flat_elements
  have hmap : (s.rows obj).map (fun r => r.reindexed s.docOps obj) =
      (elements (s.rows obj)).2.flatMap fun el =>
        (el.1 :: el.2).map fun r => r.reindexed s.docOps obj := by
    conv_lhs => rw [← hflat]
    exact List.map_flatMap
  rw [hmap]
  refine (along_flatMap fun el hel => ?_).1
  have hreg := hrows.registers el hel
  have helement : IsElement ((el.1 :: el.2).map fun r => r.reindexed s.docOps obj) := by
    refine ⟨fun r hr => ?_, fun r hr => ?_⟩
    · obtain rfl : _ = r := Option.some.inj hr
      exact hreg.insert
    · obtain ⟨x, hx, rfl⟩ := List.mem_map.mp hr
      exact (hreg.updates x hx).1
  refine ⟨helement, (OpSet.along_element helement.tail).mpr fun a r' b heq => ?_⟩
  obtain ⟨l, l', hl, rfl, hl'⟩ := List.map_eq_append_iff.mp heq
  obtain ⟨r, rest, rfl, rfl, rfl⟩ := List.map_eq_cons_iff.mp hl'
  have hmem : ∀ x ∈ l ++ r :: rest, x ∈ s.rows obj := fun x hx => hrows.mem_rows hel x (hl ▸ hx)
  have hr := hmem r (by simp)
  have hsorted := hreg.sorted
  rw [hl] at hsorted
  show IndexBuilder.isTop s.docOps (r.docOp obj) = _
  rw [isTop_docOps hS h hd hplain hr]
  show (r.visible && _) = (r.visible && _)
  congr 1
  rw [Bool.eq_iff_iff, List.all_eq_true, Bool.not_eq_true', List.any_eq_false]
  have hcursor : ∀ x ∈ l ++ r :: rest, x.elemidOrKey = .seq (some el.1.id) := fun x hx => by
    rw [elemidOrKey_seq hS h ht rfl (hmem x hx), hreg.cursor x (hl ▸ hx)]
  constructor
  · intro hall x hx
    obtain ⟨y, hy, rfl⟩ := List.mem_map.mp hx
    have hy' : y ∈ l ++ r :: rest := by simp [hy]
    have hlt : r.id < y.id :=
      (List.pairwise_cons.mp (List.pairwise_append.mp hsorted).2.1).1 y hy
    have hvis := hall y (hmem y hy')
    rw [hcursor y hy', hcursor r (by simp)] at hvis
    have hfalse : y.visible = false := by simpa [not_le_of_gt hlt] using hvis
    exact Bool.eq_false_iff.mp hfalse
  · intro hnone x hx
    by_cases hkey : x.elemidOrKey = r.elemidOrKey
    · -- the rows of the element are those of the register
      rw [← hflat] at hx
      obtain ⟨el', hel', hx'⟩ := List.mem_flatMap.mp hx
      have hnd : ((elements (s.rows obj)).2.map fun el => el.1.id).Nodup :=
        (h.nodup obj).sublist (elementIds_sublist (s.rows obj))
      have hid : el'.1.id = el.1.id := by
        rw [elemidOrKey_seq hS h ht rfl (hrows.mem_rows hel' x hx'),
          (hrows.registers el' hel').cursor x hx', hcursor r (by simp)] at hkey
        exact Option.some.inj (Key.seq.inj hkey)
      obtain rfl := List.inj_on_of_nodup_map hnd hel' hel hid
      rw [hl, List.mem_append, List.mem_cons] at hx'
      rcases hx' with hx' | rfl | hx'
      · have hlt := (List.pairwise_append.mp hsorted).2.2 x hx' r List.mem_cons_self
        simp [hlt.le]
      · simp
      · have hvis : x.visible = false :=
          Bool.eq_false_iff.mpr (hnone (x.reindexed s.docOps obj) (List.mem_map.mpr ⟨x, hx', rfl⟩))
        simp [hvis]
    · simp [hkey]

/-- What is loaded makes the same objects. -/
theorem made_reload (id : OpId A) (t : ObjType) :
    (id, t) ∈ s.reload.objInfo ↔ ∃ op, (id, op) ∈ S ∧ op.action = .make t := by
  have hinfo := (build_spec (docOps_successive hS h hd hplain) (docOps_grouped hS h hd)).2
  show (id, t) ∈ (IndexBuilder.build s.docOps).objInfo ↔ _
  rw [hinfo, IndexBuilder.made, List.mem_reverse, List.mem_filterMap]
  constructor
  · rintro ⟨op, hop, heq⟩
    obtain ⟨o, -, r, hr, rfl⟩ := s.mem_docOps.mp hop
    obtain ⟨p, hp, -, -, hrec⟩ := h.row o r hr
    obtain ⟨t', hty, heq⟩ := Option.map_eq_some_iff.mp heq
    obtain ⟨rfl, rfl⟩ := Prod.mk.inj heq
    refine ⟨p.2, ?_, ?_⟩
    · show (r.id, p.2) ∈ S
      rw [hrec.id]
      exact hp
    · rw [← hrec.action]
      have hty : r.action.objType? = some t' := hty
      cases hact : r.action with
      | make t =>
        rw [hact] at hty
        exact congrArg OpType.make (Option.some.inj hty)
      | delete | increment | put | markBegin | markEnd =>
        rw [hact] at hty
        cases hty
  · rintro ⟨op, hop, hmake⟩
    obtain ⟨r, hr, hrec⟩ := h.op (id, op) hop (by rw [hmake]; exact fun hc => by cases hc)
    refine ⟨_, docOp_mem hS h hr, ?_⟩
    show r.action.objType?.map (fun t => (r.id, t)) = _
    rw [hrec.action, hrec.id, hmake]
    rfl

theorem mem_rows_reload {x : Row A} : x ∈ s.reload.rows obj ↔
    ∃ r ∈ s.rows obj, r.reindexed s.docOps obj = x := by
  rw [rows_reload hS h hd hplain, List.mem_map]

theorem represents_reload : Represents s.reload S where
  nodup obj := by
    rw [rows_reload hS h hd hplain, List.map_map]
    exact h.nodup obj
  row obj x hx := by
    obtain ⟨r, hr, rfl⟩ := (mem_rows_reload hS h hd hplain).mp hx
    obtain ⟨p, hp, hobj, hdel, hrec⟩ := h.row obj r hr
    exact ⟨p, hp, hobj, hdel, hrec.id, hrec.key, hrec.insert, hrec.action⟩
  op p hp hdel := by
    obtain ⟨r, hr, hrec⟩ := h.op p hp hdel
    exact ⟨_, (mem_rows_reload hS h hd hplain).mpr ⟨r, hr, rfl⟩, hrec.id, hrec.key, hrec.insert,
      hrec.action⟩
  made := made_reload hS h hd hplain

theorem detailed_reload : Detailed s.reload S where
  succ obj x hx := by
    obtain ⟨r, hr, rfl⟩ := (mem_rows_reload hS h hd hplain).mp hx
    exact ⟨(hd.succ obj r hr).nodup, (hd.succ obj r hr).mem⟩
  indexed obj x hx := by
    obtain ⟨r, hr, rfl⟩ := (mem_rows_reload hS h hd hplain).mp hx
    exact hd.indexed obj r hr
  order obj t ht := by
    rw [rows_reload hS h hd hplain]
    exact (hd.order obj t ht).map fun r => ⟨rfl, rfl, rfl⟩
  text obj ht x hx hw := by
    obtain ⟨r, hr, rfl⟩ := (mem_rows_reload hS h hd hplain).mp hx
    refine hd.text obj ht r hr ?_
    -- it had this width
    rw [hd.width obj r hr (text_isInc hS h hplain ht hr)]
    unfold Row.reindexed at hw
    dsimp only at hw
    split at hw
    · rwa [if_pos ‹_›]
    · exact absurd hw (lt_irrefl 0)
  width obj x hx _ := by
    obtain ⟨r, hr, rfl⟩ := (mem_rows_reload hS h hd hplain).mp hx
    show (if r.visible then some r.action.width else none).getD 0 =
      if r.visible then r.action.width else 0
    split <;> rfl

end

/-- **Columns that record a log do so when they have been saved and loaded.** -/
theorem Recorded.reload (h : Recorded s S) (hS : S.WF) (hplain : S.Plain) : Recorded s.reload S where
  represents := represents_reload hS h.represents (h.detailed hplain) hplain
  detailed _ := detailed_reload hS h.represents (h.detailed hplain) hplain
  indexed _ obj t ht := by
    have hd := h.detailed hplain
    have hrows := rows_reload hS h.represents hd hplain obj
    have ht := ((represents_reload hS h.represents hd hplain).objectType hS).mp ht
    have hold := h.indexed hplain obj t ((h.represents.objectType hS).mpr ht)
    cases t with
    | map =>
      have hmap : MapRows (s.rows obj) := hold
      rw [hrows]
      refine ⟨fun r hr => ?_, fun r hr => ?_, fun r hr => ?_, ?_⟩
      · obtain ⟨x, hx, rfl⟩ := List.mem_map.mp hr
        exact hmap.key x hx
      · obtain ⟨x, hx, rfl⟩ := List.mem_map.mp hr
        exact hmap.insert x hx
      · obtain ⟨x, hx, rfl⟩ := List.mem_map.mp hr
        exact hmap.indexed x hx
      · exact List.pairwise_map.mpr hmap.sorted
    | list =>
      have hlist : IndexedRows (s.rows obj) := hold
      obtain ⟨htop, hnamed⟩ := along_named.mp (along_reload hS h.represents hd hplain ht)
      rw [hrows] at htop hnamed ⊢
      refine ⟨⟨fun r hr => ?_, fun r hr => ?_, fun r hr => ?_, fun r hr => ?_, htop⟩,
        fun r hr => ?_, fun r hr => ?_, hnamed⟩
      · rw [List.head?_map, Option.mem_def, Option.map_eq_some_iff] at hr
        obtain ⟨x, hx, rfl⟩ := hr
        exact hlist.head x hx
      · obtain ⟨x, hx, rfl⟩ := List.mem_map.mp hr
        exact hlist.key x hx
      · obtain ⟨x, hx, rfl⟩ := List.mem_map.mp hr
        exact hlist.unmarked x hx
      · obtain ⟨x, hx, rfl⟩ := List.mem_map.mp hr
        exact hlist.isInc x hx
      · obtain ⟨x, hx, rfl⟩ := List.mem_map.mp hr
        exact hlist.insertion x hx
      · obtain ⟨x, hx, rfl⟩ := List.mem_map.mp hr
        exact hlist.indexed x hx
    | table | text => trivial

section

open Automerge

variable {H : Type} [LinearOrder H] [ChangeHash H A (Op A)]
  {reconstruct : List (Change H A (Op A)) → OpSet A} {n : ℕ}

/-- **A replica that is saved and loaded reads the same**, where increments are made to
counters of maps only. The builder finds the rows as they were, with their increments and what
is visible, and `top` with the last visible one of each key or element; and the columns record
the same log. -/
theorem reads_of_reload {d : AutoCommit (columns (H := H) reconstruct n)} (h : Replica d)
    (hplain : d.log.Plain) :
    (∀ obj, (OpSet.reload d.doc.ops).rows obj = (OpSet.rows d.doc.ops obj).map fun r =>
      { r with
        top := r.isLast (OpSet.rows d.doc.ops obj)
        text := if r.visible then some r.action.width else none }) ∧
      Recorded (OpSet.reload d.doc.ops) d.log ∧
        SameReads d.doc.ops (OpSet.reload d.doc.ops) ∧
          ∀ depth, OpSet.fromAutomerge d.doc.ops depth =
            (OpSet.reload d.doc.ops).fromAutomerge depth := by
  have hold := h.kept.recorded
  have hrec := hold.reload h.kept.wf hplain
  have hsame := hold.sameReads hrec h.kept.wf hplain
  exact ⟨rows_reload_isLast h.kept.wf hold.represents (hold.detailed hplain) hplain, hrec, hsame,
    hsame.fromAutomerge⟩

theorem reads_of_reload_received : ∃ doc, Received doc ∧
    (∀ obj, (OpSet.reload doc.ops).rows obj = (OpSet.rows doc.ops obj).map fun r =>
      { r with
        top := r.isLast (OpSet.rows doc.ops obj)
        text := if r.visible then some r.action.width else none }) ∧
      SameReads (A := ℕ) doc.ops (OpSet.reload doc.ops) := by
  obtain ⟨doc, hdoc⟩ := exists_receivedDoc
  obtain ⟨hrows, -, hsame, -⟩ := reads_of_reload hdoc.replica hdoc.plain
  exact ⟨doc, hdoc, hrows, hsame⟩

end

end AutomergeR
