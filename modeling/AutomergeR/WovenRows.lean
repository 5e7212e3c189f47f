import AutomergeR.Weave

/-! # A walk keeps a sequence in order

The stack of a walk has the youngest insertion on top, and before an element of the document
is passed the stack is down to what is older. So the elements come out in the order of a
replicated growable array (`ordered_weave`), and as the rows of each element are merged by
their ids, the new rows are in order again (`seqRows_applyObj`).
-/

namespace AutomergeR

variable {A : Type}

/-- The element that an insertion of the batch makes. -/
def ChangeOp.elem (c : ChangeOp A) : Rga.Elem (OpId A) := ⟨c.id, c.op.key.ref⟩

def Step.elem : Step A → Rga.Elem (OpId A)
  | .inl c => c.elem
  | .inr el => el.1.elem

theorem ChangeOp.elem_ref {c : ChangeOp A} {e : ElemId A} (h : c.op.key = .seq e) : c.elem.ref = e := by
  show c.op.key.ref = e
  rw [h]
  rfl

variable [LinearOrder A]

/-! ## The order of the elements -/

section

variable {ops : List (ChangeOp A)} {docs : List (OpId A)} (hb : SeqBatch ops docs)

include hb

/-- The youngest of the insertions that name an element is the first to go. -/
theorem sorted_insertsAt (e : ElemId A) :
    ((insertsAt ops e).reverse.map ChangeOp.elem).Pairwise fun c d => d.id < c.id := by
  rw [List.pairwise_map, List.pairwise_reverse]
  refine (hb.sorted.filter _).imp_of_mem fun {a b} ha hb' hab => ?_
  have ha := (mem_insertsAt_iff.mp ha).2.1
  have hb' := (mem_insertsAt_iff.mp hb').2.1
  rw [ChangeOp.element_insert ha, ChangeOp.element_insert hb'] at hab
  rcases hab with hlt | ⟨-, hlt⟩
  · exact hlt
  · exact hlt

/-- They are younger than what they name. -/
theorem ref_insertsAt {e : OpId A} : ∀ c ∈ (insertsAt ops (some e)).reverse.map ChangeOp.elem,
    c.ref = some e ∧ e < c.id := by
  intro c' hc'
  obtain ⟨c, hc, rfl⟩ := List.mem_map.mp hc'
  obtain ⟨hmem, -, hkey⟩ := mem_insertsAt_iff.mp (List.mem_reverse.mp hc)
  exact ⟨ChangeOp.elem_ref hkey, OpId.lt_of_counter (hb.element c hmem e hkey).1⟩

/-- Untangling passes what is younger than the next element of the document. -/
theorem ready_untangled {rest : List (Rga.Elem (OpId A))} {bottom : List (ChangeOp A)} (fuel : ℕ) :
    ∀ {out : List (Rga.Elem (OpId A))} {top : List (ChangeOp A)},
      Rga.Ready out rest ((top ++ bottom).map ChangeOp.elem) →
      (∀ c ∈ top, ∀ r ∈ rest.head?, r.id < c.id) →
      ∃ top', (untangled ops bottom.length fuel (top ++ bottom)).2 = top' ++ bottom ∧
        Rga.Ready (out ++ (untangled ops bottom.length fuel (top ++ bottom)).1.map ChangeOp.elem) rest
          ((top' ++ bottom).map ChangeOp.elem) := by
  induction fuel with
  | zero =>
    intro out top h _
    exact ⟨top, rfl, by rwa [untangled, List.map_nil, List.append_nil]⟩
  | succ fuel ih =>
    intro out top h hlt
    cases top with
    | nil =>
      have hstop : untangled ops bottom.length (fuel + 1) bottom = ([], bottom) := by
        cases bottom with
        | nil => rfl
        | cons c bottom =>
          rw [untangled, if_pos (by simp)]
      refine ⟨[], by rw [List.nil_append, hstop], ?_⟩
      rw [List.nil_append] at h ⊢
      rwa [hstop, List.map_nil, List.append_nil]
    | cons c top =>
      have hnew := fun r hr => hlt c List.mem_cons_self r hr
      have h : Rga.Ready out rest (c.elem :: (top ++ bottom).map ChangeOp.elem) := h
      have hplace : Rga.Ready (out ++ [c.elem]) rest ((insertsAt ops (some c.id)).reverse.map
          ChangeOp.elem ++ (top ++ bottom).map ChangeOp.elem) :=
        h.place hnew (ref_insertsAt hb) (sorted_insertsAt hb _)
      rw [← List.map_append, ← List.append_assoc] at hplace
      obtain ⟨top', hstack, hready⟩ := ih hplace fun d hd r hr => by
        rcases List.mem_append.mp hd with hd | hd
        · exact (hnew r hr).trans (ref_insertsAt hb _ (List.mem_map_of_mem hd)).2
        · exact hlt d (List.mem_cons_of_mem c hd) r hr
      refine ⟨top', ?_, ?_⟩
      · rw [List.cons_append, untangled, if_neg (by rw [List.length_append]; omega)]
        rwa [← List.append_assoc]
      · rw [List.cons_append, untangled, if_neg (by rw [List.length_append]; omega)]
        dsimp only
        rw [← List.append_assoc, List.map_cons, List.append_cons]
        exact hready

omit hb in
/-- The stack is cut where it is down to what is older. -/
theorem stack_cut {stack : List (ChangeOp A)} {r : OpId A}
    (hsorted : (stack.map ChangeOp.elem).Pairwise fun c d => d.id < c.id)
    (hne : ∀ c ∈ stack, c.id ≠ r) : ∃ top bottom, stack = top ++ bottom ∧
      bottom.length = stack.countP (fun c => c.id < r) ∧ (∀ c ∈ top, r < c.id) ∧
        ∀ c ∈ bottom, c.id < r := by
  induction stack with
  | nil => exact ⟨[], [], rfl, rfl, List.forall_mem_nil _, List.forall_mem_nil _⟩
  | cons c stack ih =>
    rw [List.map_cons, List.pairwise_cons] at hsorted
    have hold : ∀ d ∈ stack, d.id < c.id := fun d hd => hsorted.1 d.elem (List.mem_map_of_mem hd)
    rcases lt_or_gt_of_ne (hne c List.mem_cons_self) with hlt | hlt
    · have hall : ∀ d ∈ c :: stack, d.id < r := by
        intro d hd
        rcases List.mem_cons.mp hd with rfl | hd
        · exact hlt
        · exact (hold d hd).trans hlt
      refine ⟨[], c :: stack, rfl, ?_, List.forall_mem_nil _, hall⟩
      exact (List.countP_eq_length.mpr fun d hd => decide_eq_true (hall d hd)).symm
    · obtain ⟨top, bottom, rfl, hlen, htop, hbottom⟩ :=
        ih hsorted.2 fun d hd => hne d (List.mem_cons_of_mem c hd)
      refine ⟨c :: top, bottom, rfl, ?_, fun d hd => ?_, hbottom⟩
      · rw [List.countP_cons_of_neg (by simpa using hlt.le)]
        exact hlen
      · rcases List.mem_cons.mp hd with rfl | hd
        · exact hlt
        · exact htop d hd

/-- **What a walk passes is in order.** -/
theorem ordered_weave : ∀ (els : List (Row A × List (Row A))) {seen : List (ElemId A)}
    {placed stack : List (ChangeOp A)} {out : List (Rga.Elem (OpId A))},
    Weaving ops docs seen placed stack → Pending docs seen els →
    Rga.Ready out (els.map fun el => el.1.elem) (stack.map ChangeOp.elem) →
    Rga.Ordered (out ++ (weave ops els stack).map Step.elem)
  | [], seen, placed, stack, out, _, _, h => by
    have h : Rga.Ready out [] ((stack ++ []).map ChangeOp.elem) := by rwa [List.append_nil]
    obtain ⟨top', -, hready⟩ := ready_untangled hb ops.length h (by simp)
    rw [List.append_nil] at hready
    have hordered := hready.ordered
    rw [List.append_nil] at hordered
    unfold weave
    rwa [List.map_map]
  | (r, rest) :: els, seen, placed, stack, out, hw, hels, h => by
    have hdoc := (hels.fresh (r, rest) List.mem_cons_self).1
    have hne : ∀ c ∈ stack, c.id ≠ r.id := by
      intro c hc heq
      have hcops := (hw.mem_ops c (List.mem_append_left placed hc)).1
      exact (List.nodup_append.mp hb.nodup).2.2 r.id hdoc c.id (List.mem_map_of_mem hcops) heq.symm
    obtain ⟨top, bottom, hcut, hlen, htop, hbottom⟩ := stack_cut h.sorted hne
    obtain ⟨seen', hw', hle, -, hdocs⟩ := weaving_untangled hb (stack.countP fun c => c.id < r.id)
      ops.length hw (Nat.le_add_right _ _)
    rw [hcut] at h
    obtain ⟨top', hstack, hready⟩ := ready_untangled hb ops.length h (by
      intro c hc x hx
      cases hx
      exact htop c hc)
    rw [← hcut, hlen] at hstack hready
    -- the stack is down to what is older than the element
    rw [hstack, List.length_append] at hle
    have hnil : top' = [] := List.length_eq_zero_iff.mp (by omega)
    subst hnil
    rw [hstack, List.nil_append] at hw'
    have hold : ∀ c ∈ bottom.map ChangeOp.elem, c.id < r.elem.id := by
      intro c hc
      obtain ⟨d, hd, rfl⟩ := List.mem_map.mp hc
      exact hbottom d hd
    have hpass : Rga.Ready (out ++ (untangled ops (stack.countP fun c => c.id < r.id) ops.length
        stack).1.map ChangeOp.elem ++ [r.elem]) (els.map fun el => el.1.elem)
        ((insertsAt ops (some r.id)).reverse.map ChangeOp.elem ++ bottom.map ChangeOp.elem) :=
      hready.pass hold (ref_insertsAt hb) (sorted_insertsAt hb _)
    rw [← List.map_append] at hpass
    obtain ⟨-, hnew, hnext⟩ := hels.next hdocs
    have hrest := ordered_weave els (hw'.pass hdoc hnew) hnext hpass
    unfold weave
    dsimp only
    rw [hstack, List.nil_append, List.map_append, List.map_map, List.map_cons, ← List.append_assoc,
      List.append_cons]
    exact hrest

end

/-! ## The rows of an element -/

section

variable {ops : List (ChangeOp A)} {docs : List (OpId A)}

theorem Tops.row_key {t : Tops A} {e : Entry A} {new : Row A} (h : t.row e = some new) :
    new.key = e.key := by
  cases e with
  | doc r preds =>
    cases h
    simp [Entry.key]
  | change c =>
    obtain ⟨-, rfl⟩ := Tops.row_change.mp h
    rfl

/-- What is merged by ids is sorted by ids. -/
theorem sorted_mergeElement (ops : List (ChangeOp A)) : ∀ {updates : List (ChangeOp A)}
    {rows : List (Row A)}, updates.Pairwise (fun a b => a.id < b.id) →
    rows.Pairwise (fun x y => x.id < y.id) → (∀ c ∈ updates, ∀ r ∈ rows, c.id ≠ r.id) →
    (mergeElement ops updates rows).Pairwise fun e e' => e.id < e'.id
  | updates, [], hu, _, _ => List.pairwise_map.mpr hu
  | updates, r :: rows, hu, hr, hne => by
    rw [List.pairwise_cons] at hr
    have hlater : ∀ c ∈ updates.dropWhile (fun c => c.id < r.id), r.id < c.id := by
      intro c hc
      have hmem := (List.dropWhile_sublist _).subset hc
      refine lt_of_le_of_ne ?_ (hne c hmem r List.mem_cons_self).symm
      -- the first that is not older, and those behind it
      have hsub := hu.sublist (List.dropWhile_sublist fun c => decide (c.id < r.id))
      have hhead := List.head?_dropWhile_not (fun c : ChangeOp A => decide (c.id < r.id)) updates
      cases hd : updates.dropWhile (fun c => c.id < r.id) with
      | nil =>
        rw [hd] at hc
        cases hc
      | cons x xs =>
        rw [hd] at hc hsub hhead
        have hx : r.id ≤ x.id := not_lt.mp (of_decide_eq_false hhead)
        rcases List.mem_cons.mp hc with rfl | hc
        · exact hx
        · exact hx.trans ((List.pairwise_cons.mp hsub).1 c hc).le
    unfold mergeElement
    refine List.pairwise_append.mpr ⟨List.pairwise_map.mpr (hu.sublist (List.takeWhile_sublist _)),
      List.pairwise_cons.mpr ⟨fun e he => ?_, ?_⟩, fun e he e' he' => ?_⟩
    · rcases mem_mergeElement he with ⟨c, hc, rfl⟩ | ⟨x, hx, rfl⟩
      · exact hlater c hc
      · exact hr.1 x hx
    · exact sorted_mergeElement ops (hu.sublist (List.dropWhile_sublist _)) hr.2 fun c hc x hx =>
        hne c ((List.dropWhile_sublist _).subset hc) x (List.mem_cons_of_mem r hx)
    · obtain ⟨c, hc, rfl⟩ := List.mem_map.mp he
      have hlt : c.id < r.id := by simpa using List.mem_takeWhile_imp hc
      rcases List.mem_cons.mp he' with rfl | he'
      · exact hlt
      · rcases mem_mergeElement he' with ⟨d, hd, rfl⟩ | ⟨x, hx, rfl⟩
        · exact hlt.trans (hlater d hd)
        · exact hlt.trans (hr.1 x hx)

theorem sorted_updatesOf (hb : SeqBatch ops docs) (e : OpId A) :
    (updatesOf ops e).Pairwise fun a b => a.id < b.id := by
  refine (hb.sorted.filter _).imp_of_mem fun {a b} ha hb' hab => ?_
  obtain ⟨-, hains, hakey⟩ := mem_updatesOf.mp ha
  obtain ⟨-, hbins, hbkey⟩ := mem_updatesOf.mp hb'
  rw [ChangeOp.element_update hains hakey, ChangeOp.element_update hbins hbkey] at hab
  exact (hab.resolve_left (lt_irrefl e)).2

/-- The rows of what is passed on one element. -/
theorem registerRows_entries {t : Tops A} {first : Entry A} {row : Row A}
    (hrow : t.row first = some row) (hins : first.insert = true) (es : List (Entry A))
    (hes : ∀ e ∈ es, e.insert = false ∧ e.key = .seq (some first.id))
    (hsorted : (first :: es).Pairwise fun e e' => e.id < e'.id) :
    ∃ rest, (first :: es).filterMap t.row = row :: rest ∧ RegisterRows row rest := by
  refine ⟨es.filterMap t.row, List.filterMap_cons_some hrow, ?_, fun x hx => ?_, ?_⟩
  · rw [Tops.row_insert hrow, hins]
  · obtain ⟨e, he, hx⟩ := List.mem_filterMap.mp hx
    rw [Tops.row_insert hx, Tops.row_key hx, Tops.row_id hrow]
    exact hes e he
  · rw [← List.filterMap_cons_some hrow]
    refine hsorted.filterMap t.row fun e e' hee new hnew new' hnew' => ?_
    rw [Tops.row_id hnew, Tops.row_id hnew']
    exact hee

theorem Tops.row_elem {t : Tops A} {e : Entry A} {new : Row A} (h : t.row e = some new) :
    new.elem = ⟨e.id, e.key.ref⟩ := by
  unfold Row.elem
  rw [Tops.row_id h, Tops.row_key h]

/-- The rows of a step are those of its element, in order. -/
theorem rows_register (hb : SeqBatch ops docs) (step : Step A)
    (hnew : ∀ c ∈ step.new?, c ∈ ops ∧ c.insert = true ∧ c.op.action ≠ .delete)
    (hdoc : ∀ el ∈ step.doc?, RegisterRows el.1 el.2 ∧ ∀ c ∈ ops, c.insert = false →
      c.op.key = .seq (some el.1.id) → ∀ r ∈ el.2, c.id ≠ r.id) :
    ∃ row rest, (step.register ops).rows = row :: rest ∧ RegisterRows row rest ∧ row.elem = step.elem := by
  have hupdate : ∀ {e : OpId A}, ∀ c ∈ updatesOf ops e, (Entry.change c).insert = false ∧
      (Entry.change c).key = .seq (some e) ∧ e < c.id := by
    intro e c hc
    obtain ⟨hmem, hins, hkey⟩ := mem_updatesOf.mp hc
    exact ⟨hins, hkey, OpId.lt_of_counter (hb.element c hmem e hkey).1⟩
  cases step with
  | inl c =>
    obtain ⟨hc, hins, hdel⟩ := hnew c rfl
    have hfollow := hb.followers_eq hc hins
    have hrows : ∀ t : Tops A, (c :: updatesOf ops c.id).filterMap (fun o => t.row (.change o)) =
        (.change c :: (updatesOf ops c.id).map Entry.change).filterMap t.row := fun t => by
      rw [← List.map_cons, List.filterMap_map]
      rfl
    unfold Step.register Register.rows
    dsimp only
    rw [hfollow]
    generalize (⟨.nothing, List.dropLast _, [], []⟩ : Tops A) = t
    rw [hrows]
    have hrow : t.row (.change c) = some (c.toRow (t.conflicted.contains c.id)) :=
      Tops.row_change.mpr ⟨hdel, rfl⟩
    obtain ⟨rest, hrest, hreg⟩ := registerRows_entries hrow hins
      ((updatesOf ops c.id).map .change) (fun e he => by
        obtain ⟨o, ho, rfl⟩ := List.mem_map.mp he
        exact ⟨(hupdate o ho).1, (hupdate o ho).2.1⟩)
      (List.pairwise_cons.mpr ⟨fun e he => by
        obtain ⟨o, ho, rfl⟩ := List.mem_map.mp he
        exact (hupdate o ho).2.2, List.pairwise_map.mpr (sorted_updatesOf hb c.id)⟩)
    exact ⟨_, rest, hrest, hreg, Tops.row_elem hrow⟩
  | inr el =>
    obtain ⟨r, rest⟩ := el
    obtain ⟨hreg, hne⟩ := hdoc (r, rest) rfl
    have hsorted := List.pairwise_cons.mp hreg.sorted
    unfold Step.register Register.rows
    dsimp only
    generalize (List.foldl Tops.process Tops.start _).reset = t
    have hrow : t.row (.doc r (predsOf ops r.id)) = some _ := rfl
    obtain ⟨rest', hrest, hreg'⟩ := registerRows_entries hrow hreg.insert
      (mergeElement ops (updatesOf ops r.id) rest) (fun e he => by
        rcases mem_mergeElement he with ⟨c, hc, rfl⟩ | ⟨x, hx, rfl⟩
        · exact ⟨(hupdate c hc).1, (hupdate c hc).2.1⟩
        · exact hreg.updates x hx)
      (List.pairwise_cons.mpr ⟨fun e he => by
        rcases mem_mergeElement he with ⟨c, hc, rfl⟩ | ⟨x, hx, rfl⟩
        · exact (hupdate c hc).2.2
        · exact hsorted.1 x hx,
        sorted_mergeElement ops (sorted_updatesOf hb r.id) hsorted.2 fun c hc =>
          hne c (mem_updatesOf.mp hc).1 (mem_updatesOf.mp hc).2.1 (mem_updatesOf.mp hc).2.2⟩)
    exact ⟨_, rest', hrest, hreg', Tops.row_elem hrow⟩

/-- The rows of all elements. -/
theorem flat_steps (f : Step A → List (Row A)) : ∀ steps : List (Step A),
    (∀ step ∈ steps, ∃ row rest, f step = row :: rest ∧ RegisterRows row rest ∧ row.elem = step.elem) →
    ∃ els, steps.flatMap f = flat els ∧ (∀ el ∈ els, RegisterRows el.1 el.2) ∧
      (els.map fun el => el.1.elem) = steps.map Step.elem
  | [], _ => ⟨[], rfl, List.forall_mem_nil _, rfl⟩
  | step :: steps, h => by
    obtain ⟨row, rest, hrows, hreg, helem⟩ := h step List.mem_cons_self
    obtain ⟨els, hflat, hregs, helems⟩ :=
      flat_steps f steps fun x hx => h x (List.mem_cons_of_mem step hx)
    refine ⟨(row, rest) :: els, ?_, fun el hel => ?_, ?_⟩
    · rw [List.flatMap_cons, hrows, hflat]
      rfl
    · rcases List.mem_cons.mp hel with rfl | hel
      · exact hreg
      · exact hregs el hel
    · rw [List.map_cons, List.map_cons, helem, helems]

/-- The elements of a sequence. -/
def elementIds (rows : List (Row A)) : List (OpId A) := (elements rows).2.map fun el => el.1.id

variable {rows : List (Row A)} (hb : SeqBatch ops (elementIds rows))

include hb

/-- **The walk of a sequence gives each operation its place, and none gets two.** -/
theorem changes_listRegisters : ((listRegisters ops rows).flatMap Register.changes).Perm ops := by
  have hbefore : (Register.walked ((elements rows).1.map fun r => .doc r (predsOf ops r.id))).changes =
      [] := by
    rw [Register.changes_walked, List.filterMap_map]
    exact List.filterMap_eq_nil_iff.mpr fun _ _ => rfl
  unfold listRegisters
  dsimp only
  rw [List.flatMap_cons, hbefore, List.nil_append]
  exact hb.changes_walkList rfl

theorem applyObj_sequence {t : ObjType} (ht : t.isSequence = true) : applyObj (some t) ops rows =
    some ((listRegisters ops rows).flatMap Register.rows) := by
  cases t with
  | map | table => cases ht
  | list | text =>
    unfold applyObj
    exact if_pos (changes_listRegisters hb)

/-- **A merge keeps a sequence in order.** -/
theorem seqRows_registers (h : SeqRows rows) (hdel : ∀ c ∈ ops, c.insert = true → c.op.action ≠ .delete)
    (hids : ∀ c ∈ ops, ∀ r ∈ rows, c.id ≠ r.id) :
    SeqRows ((listRegisters ops rows).flatMap Register.rows) := by
  have hbefore := h.before
  have hrows := elements_rows rows
  have hdocs := docs_weave ops (elements rows).2 (insertsAt ops none).reverse
  have hins := insertions_weave hb rfl
  have hready : Rga.Ready [] ((elements rows).2.map fun el => el.1.elem)
      ((insertsAt ops none).reverse.map ChangeOp.elem) := by
    refine ⟨h.ordered, fun c' hc' => ?_, sorted_insertsAt hb none⟩
    obtain ⟨c, hc, rfl⟩ := List.mem_map.mp hc'
    have href := ChangeOp.elem_ref (mem_insertsAt_iff.mp (List.mem_reverse.mp hc)).2.2
    refine Rga.behind_of_getLast (by rw [href]; rfl) fun p hp => ?_
    rw [href] at hp
    cases hp
  have hordered := ordered_weave hb _ (.start ops _) (.start hb rfl) hready
  obtain ⟨els, hflat, hregs, helems⟩ := flat_steps (fun step => (step.register ops).rows)
    (weave ops (elements rows).2 (insertsAt ops none).reverse) fun step hstep => by
      refine rows_register hb step (fun c hc => ?_) fun el hel => ?_
      · have hmem := hins.subset (List.mem_filterMap.mpr ⟨step, hstep, hc⟩)
        obtain ⟨hc, hcins⟩ := List.mem_filter.mp hmem
        exact ⟨hc, hcins, hdel c hc hcins⟩
      · have hmem : el ∈ (elements rows).2 := hdocs ▸ List.mem_filterMap.mpr ⟨step, hstep, hel⟩
        refine ⟨h.registers el hmem, fun c hc _ _ r hr => hids c hc r ?_⟩
        rw [← hrows]
        exact List.mem_append_right _ (List.mem_flatMap.mpr ⟨el, hmem, List.mem_cons_of_mem _ hr⟩)
  unfold listRegisters
  dsimp only
  rw [hbefore, walkList_eq, List.flatMap_cons, List.flatMap_map, hflat]
  refine SeqRows.of_flat hregs ?_
  rw [helems]
  exact hordered

end

end AutomergeR
