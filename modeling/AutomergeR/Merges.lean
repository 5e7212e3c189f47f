import AutomergeR.BatchRows

/-! # Merges keep the index

A document that is made by calls, forks and merges has sorted maps and lists with a right
index (`Tx.Reached.keeps`), as long as no merge brings an increment that names anything
but counters.
-/

namespace AutomergeR

variable {A : Type} [LinearOrder A]

/-! ## The operations of a batch in order -/

section

variable {batch : List (OpId A × Op A)} {obj : ObjId A}

theorem predsOf_map (ops : List (ChangeOp A)) (f : ChangeOp A → List (OpId A × Option ℤ))
    (id : OpId A) : predsOf (ops.map fun c => { c with succ := f c }) id = predsOf ops id := by
  unfold predsOf
  rw [List.flatMap_map]

/-- The operations on an object, before they get their successors. -/
def sortOps (batch : List (OpId A × Op A)) (obj : ObjId A) : List (ChangeOp A) :=
  ((batch.filter fun p => p.2.obj = obj).map fun p => ⟨p.1, p.2, []⟩).insertionSort
    fun a b => keyLE a b

theorem orderOps_eq (batch : List (OpId A × Op A)) (obj : ObjId A) : orderOps batch obj =
    (sortOps batch obj).map fun c => { c with succ := predsOf (sortOps batch obj) c.id } := rfl

theorem mem_sortOps {c : ChangeOp A} (h : c ∈ sortOps batch obj) :
    (c.id, c.op) ∈ batch ∧ c.op.obj = obj := by
  have h := (List.perm_insertionSort _ _).subset h
  obtain ⟨p, hp, rfl⟩ := List.mem_map.mp h
  obtain ⟨hp, hobj⟩ := List.mem_filter.mp hp
  exact ⟨hp, of_decide_eq_true hobj⟩

theorem mem_predsOf {ops : List (ChangeOp A)} {id : OpId A} {s : OpId A × Option ℤ}
    (h : s ∈ predsOf ops id) :
    ∃ c ∈ ops, id ∈ c.op.pred ∧ s = (c.id, c.op.action.getIncrementValue) := by
  obtain ⟨c, hc, hs⟩ := List.mem_flatMap.mp h
  obtain ⟨x, hx, rfl⟩ := List.mem_map.mp hs
  obtain ⟨hx, hid⟩ := List.mem_filter.mp hx
  exact ⟨c, hc, of_decide_eq_true hid ▸ hx, rfl⟩

theorem mem_orderOps {c : ChangeOp A} (h : c ∈ orderOps batch obj) :
    (c.id, c.op) ∈ batch ∧ c.op.obj = obj ∧ c.succ = predsOf (orderOps batch obj) c.id := by
  rw [orderOps_eq] at h ⊢
  obtain ⟨o, ho, rfl⟩ := List.mem_map.mp h
  obtain ⟨hmem, hobj⟩ := mem_sortOps ho
  exact ⟨hmem, hobj, (predsOf_map _ _ _).symm⟩

theorem nodup_orderOps (h : (batch.map Prod.fst).Nodup) :
    ((orderOps batch obj).map ChangeOp.id).Nodup := by
  rw [orderOps_eq, List.map_map]
  have hid : (ChangeOp.id ∘ fun c : ChangeOp A =>
      { c with succ := predsOf (sortOps batch obj) c.id }) = ChangeOp.id := rfl
  rw [hid]
  apply ((List.perm_insertionSort _ _).map ChangeOp.id).nodup_iff.mpr
  rw [List.map_map]
  exact h.sublist ((List.filter_sublist).map _)

/-- The operations on an object come in the order of their keys, where a rank says what
that is. -/
theorem sorted_orderOps {B : Type} [LinearOrder B] {rank : ChangeOp A → B}
    (hsucc : ∀ (c : ChangeOp A) (succ : List (OpId A × Option ℤ)), rank { c with succ := succ } = rank c)
    (h : ∀ a ∈ orderOps batch obj, ∀ b ∈ orderOps batch obj, keyLE a b = true ↔ rank a ≤ rank b) :
    (orderOps batch obj).Pairwise fun a b => rank a ≤ rank b := by
  rw [orderOps_eq] at h ⊢
  have h : ∀ a ∈ sortOps batch obj, ∀ b ∈ sortOps batch obj, keyLE a b = true ↔ rank a ≤ rank b := by
    intro a ha b hb
    have hab := h _ (List.mem_map_of_mem ha) _ (List.mem_map_of_mem hb)
    rw [hsucc a, hsucc b] at hab
    exact hab
  rw [List.pairwise_map]
  simp only [hsucc]
  unfold sortOps at h ⊢
  generalize (batch.filter fun p => p.2.obj = obj).map (fun p => (⟨p.1, p.2, []⟩ : ChangeOp A)) = l
    at h ⊢
  have hrank : ∀ a ∈ l, ∀ b ∈ l, keyLE a b = true ↔ rank a ≤ rank b := fun a ha b hb =>
    h a ((List.perm_insertionSort _ _).symm.subset ha) b ((List.perm_insertionSort _ _).symm.subset hb)
  have hsorted : ((l.insertionSort fun a b => keyLE a b).map rank).Pairwise (· ≤ ·) := by
    rw [List.map_insertionSort (fun a b => keyLE a b = true) (· ≤ ·) rank l hrank]
    exact List.pairwise_insertionSort _ _
  exact List.pairwise_map.mp hsorted

/-- On a map these are the keys and the ids. -/
theorem keyLE_map {a b : ChangeOp A} (ha : a.op.key = .map a.mapKey ∧ a.insert = false)
    (hb : b.op.key = .map b.mapKey ∧ b.insert = false) : keyLE a b = true ↔
      (toLex (a.mapKey, a.id) : String ×ₗ OpId A) ≤ toLex (b.mapKey, b.id) := by
  have helem : ∀ {c : ChangeOp A}, c.op.key = .map c.mapKey ∧ c.insert = false →
      c.elemidOrKey = .map c.mapKey := by
    rintro c ⟨hkey, hins⟩
    unfold ChangeOp.elemidOrKey
    rw [show c.op.insert = false from hins]
    exact hkey
  rw [Prod.Lex.le_iff]
  unfold keyLE
  rw [helem ha, helem hb]
  exact decide_eq_true_iff

theorem sorted_orderOps_map
    (h : ∀ c ∈ orderOps batch obj, c.op.key = .map c.mapKey ∧ c.insert = false) :
    (orderOps batch obj).Pairwise fun a b =>
      (toLex (a.mapKey, a.id) : String ×ₗ OpId A) ≤ toLex (b.mapKey, b.id) :=
  sorted_orderOps (fun _ _ => rfl) fun a ha b hb => keyLE_map (h a ha) (h b hb)

end

/-! ## What other documents bring -/

/-- Operations of other documents: their ids are not in use, their objects are older than
they are and take their keys, and increments name counters. -/
structure Tx.Fits (tx : Tx A) (batch : List (OpId A × Op A)) : Prop where
  nodup : (batch.map Prod.fst).Nodup
  empty : ∀ p ∈ batch, tx.ops.rows (some p.1) = []
  ids : ∀ p ∈ batch, ∀ obj, ∀ r ∈ tx.ops.rows obj, r.id ≠ p.1
  objects : ∀ p ∈ batch, ∀ q ∈ tx.ops.objInfo, q.1 ≠ p.1
  older : ∀ p ∈ batch, ∀ id ∈ p.2.obj, id.counter < p.1.counter
  list : ∀ p ∈ batch, (tx.ops.withMade batch).objectType p.2.obj = some .list →
    (∃ e, p.2.key = .seq e) ∧ p.2.action.isMark = false ∧
      (p.2.insert = true → p.2.action.isSetOrMake = true)
  map : ∀ p ∈ batch, (tx.ops.withMade batch).objectType p.2.obj = some .map →
    (∃ k, p.2.key = .map k) ∧ p.2.insert = false
  counters : ∀ p ∈ batch, p.2.action.isIncrement = true → ∀ id ∈ p.2.pred,
    (∀ r ∈ tx.ops.rows p.2.obj, r.id = id → r.action.isCounter = true) ∧
      ∀ q ∈ batch, q.1 = id → q.2.action.isCounter = true

namespace Tx

variable {tx tx' : Tx A} {batch : List (OpId A × Op A)} {obj : ObjId A}

/-- An increment of the batch names counters. -/
theorem Fits.preds (h : tx.Fits batch) {id : OpId A} {s : OpId A × Option ℤ}
    (hs : s ∈ predsOf (orderOps batch obj) id) (hsome : s.2.isSome = true) :
    (∀ r ∈ tx.ops.rows obj, r.id = id → r.action.isCounter = true) ∧
      ∀ q ∈ batch, q.1 = id → q.2.action.isCounter = true := by
  obtain ⟨c, hc, hpred, rfl⟩ := mem_predsOf hs
  obtain ⟨hmem, rfl, -⟩ := mem_orderOps hc
  refine h.counters _ hmem ?_ id hpred
  show c.op.action.isIncrement = true
  cases ha : c.op.action with
  | increment n => rfl
  | make | delete | put | markBegin | markEnd =>
    rw [ha] at hsome
    cases hsome

theorem Fits.change_ok (h : tx.Fits batch) {c : ChangeOp A} (hc : c ∈ orderOps batch obj) :
    (Entry.change c).Ok := by
  obtain ⟨hmem, -, hsucc⟩ := mem_orderOps hc
  intro s hs hsome
  rw [hsucc] at hs
  exact (h.preds hs hsome).2 _ hmem rfl

theorem nodup_ids_batch (hfresh : tx.Fresh) (h : tx.Fits batch) :
    ((tx.ops.rows obj).map Row.id ++ (orderOps batch obj).map ChangeOp.id).Nodup := by
  rw [List.nodup_append]
  refine ⟨hfresh.nodup obj, nodup_orderOps h.nodup, ?_⟩
  intro a ha b hb hab
  obtain ⟨r, hr, rfl⟩ := List.mem_map.mp ha
  obtain ⟨c, hc, rfl⟩ := List.mem_map.mp hb
  exact h.ids _ (mem_orderOps hc).1 obj r hr hab

theorem Fits.listBatch (h : tx.Fits batch) (hfresh : tx.Fresh)
    (ht : (tx.ops.withMade batch).objectType obj = some .list) :
    ListBatch (orderOps batch obj) (tx.ops.rows obj) where
  nodup := nodup_ids_batch hfresh h
  key c hc := by
    obtain ⟨hmem, hobj, -⟩ := mem_orderOps hc
    exact (h.list _ hmem (hobj ▸ ht)).1
  unmarked c hc := by
    obtain ⟨hmem, hobj, -⟩ := mem_orderOps hc
    exact (h.list _ hmem (hobj ▸ ht)).2.1
  insertion c hc := by
    obtain ⟨hmem, hobj, -⟩ := mem_orderOps hc
    exact (h.list _ hmem (hobj ▸ ht)).2.2
  rows r hr s hs hsome := (h.preds hs hsome).1 r hr rfl
  ops c hc := h.change_ok hc

theorem Fits.mapBatch (h : tx.Fits batch)
    (ht : (tx.ops.withMade batch).objectType obj = some .map) : MapBatch (orderOps batch obj) where
  key c hc := by
    obtain ⟨hmem, hobj, -⟩ := mem_orderOps hc
    obtain ⟨k, hk⟩ := (h.map _ hmem (hobj ▸ ht)).1
    have hk : c.op.key = .map k := hk
    unfold ChangeOp.mapKey
    rw [hk]
  insert c hc := by
    obtain ⟨hmem, hobj, -⟩ := mem_orderOps hc
    exact (h.map _ hmem (hobj ▸ ht)).2
  ops c hc := h.change_ok hc

end Tx

/-! ## The new op set -/

theorem objectType_withMade (s : OpSet A) (batch : List (OpId A × Op A))
    (h : ∀ p ∈ batch, ∀ q ∈ s.objInfo, q.1 ≠ p.1) {obj : ObjId A} {t : ObjType}
    (ht : s.objectType obj = some t) : (s.withMade batch).objectType obj = some t := by
  cases obj with
  | none => exact ht
  | some id =>
    have ht : s.objInfo.lookup id = some t := ht
    show (_ ++ s.objInfo).lookup id = some t
    have hnone : (batch.filterMap fun p => p.2.action.objType?.map fun t => (p.1, t)).lookup id =
        none := by
      rw [List.lookup_eq_none_iff]
      intro q hq
      obtain ⟨p, hp, hmade⟩ := List.mem_filterMap.mp hq
      obtain ⟨t', -, rfl⟩ := Option.map_eq_some_iff.mp hmade
      obtain ⟨l₁, l₂, hinfo, -⟩ := List.lookup_eq_some_iff.mp ht
      have hne := h p hp (id, t) (by rw [hinfo]; simp)
      simpa using hne
    rw [List.lookup_append, hnone, ht]
    rfl

/-- An object of the document, or one that the batch makes. -/
theorem objectType_withMade_cases {s : OpSet A} {batch : List (OpId A × Op A)} {obj : ObjId A}
    {t : ObjType} (ht : (s.withMade batch).objectType obj = some t) :
    (s.objectType obj).isSome = true ∨ ∃ p ∈ batch, obj = some p.1 := by
  cases obj with
  | none => exact Or.inl rfl
  | some id =>
    obtain ⟨l₁, l₂, hinfo, -⟩ := List.lookup_eq_some_iff.mp ht
    have hmem : (id, t) ∈ (s.withMade batch).objInfo := by rw [hinfo]; simp
    rcases List.mem_append.mp hmem with hmem | hmem
    · right
      obtain ⟨p, hp, hmade⟩ := List.mem_filterMap.mp hmem
      obtain ⟨t', -, hpt⟩ := Option.map_eq_some_iff.mp hmade
      cases hpt
      exact ⟨p, hp, rfl⟩
    · left
      show (s.objInfo.lookup id).isSome = true
      rw [Option.isSome_iff_ne_none, Ne, List.lookup_eq_none_iff]
      intro h
      have := h _ hmem
      simp at this

theorem applyBatch_rows {s s' : OpSet A} {batch : List (OpId A × Op A)}
    (heq : s.applyBatch batch = some s') : s'.objInfo = (s.withMade batch).objInfo ∧ ∀ obj,
      ((∃ p ∈ batch, p.2.obj = obj) ∧ applyObj ((s.withMade batch).objectType obj)
        (orderOps batch obj) (s.rows obj) = some (s'.rows obj)) ∨
      ((∀ p ∈ batch, p.2.obj ≠ obj) ∧ s'.rows obj = s.rows obj) := by
  unfold OpSet.applyBatch at heq
  dsimp only at heq
  split at heq
  · rename_i hall
    cases heq
    refine ⟨rfl, fun obj => ?_⟩
    dsimp only
    cases hany : batch.any fun p => decide (p.2.obj = obj) with
    | true =>
      obtain ⟨p, hp, hobj⟩ := List.any_eq_true.mp hany
      have hobj := of_decide_eq_true hobj
      refine Or.inl ⟨⟨p, hp, hobj⟩, ?_⟩
      obtain ⟨rows, hrows⟩ := Option.isSome_iff_exists.mp (List.all_eq_true.mp hall p hp)
      rw [hobj] at hrows
      show applyObj ((s.withMade batch).objectType obj) (orderOps batch obj)
        ((s.withMade batch).rows obj) = _
      rw [hrows]
      rfl
    | false =>
      refine Or.inr ⟨fun p hp hobj => ?_, rfl⟩
      have := List.any_eq_false.mp hany p hp
      exact this (decide_eq_true hobj)
  · cases heq

namespace Tx

variable {tx tx' : Tx A} {batch : List (OpId A × Op A)} {obj : ObjId A}

theorem foldl_max_le (l : List ℕ) : ∀ n : ℕ, n ≤ l.foldl max n ∧ ∀ m ∈ l, m ≤ l.foldl max n := by
  induction l with
  | nil => exact fun n => ⟨le_refl n, fun m hm => absurd hm List.not_mem_nil⟩
  | cons k l ih =>
    intro n
    obtain ⟨hle, hall⟩ := ih (max n k)
    refine ⟨(le_max_left n k).trans hle, fun m hm => ?_⟩
    rcases List.mem_cons.mp hm with rfl | hm
    · exact (le_max_right n m).trans hle
    · exact hall m hm

/-- Behind a merge the ids are in order. -/
theorem fresh_merge (h : tx.Fresh) (hb : tx.Fits batch) (heq : tx.merge batch = some tx') :
    tx'.Fresh ∧ tx.nextId.counter ≤ tx'.nextId.counter ∧
      ∀ p ∈ batch, p.1.counter < tx'.nextId.counter := by
  obtain ⟨s, hs, rfl⟩ := Option.map_eq_some_iff.mp heq
  obtain ⟨hinfo, hrows⟩ := applyBatch_rows hs
  obtain ⟨hle, hmax⟩ := foldl_max_le (batch.map fun p => p.1.counter + 1)
    (tx.startOp + tx.pending.length)
  generalize hnext : (batch.map fun p => p.1.counter + 1).foldl max
    (tx.startOp + tx.pending.length) = next at hle hmax ⊢
  have hbatch : ∀ p ∈ batch, p.1.counter < next := fun p hp =>
    hmax _ (List.mem_map.mpr ⟨p, hp, rfl⟩)
  have hops : ∀ obj, ∀ c ∈ orderOps batch obj, c.id.counter < next := fun obj c hc =>
    hbatch _ (mem_orderOps hc).1
  have hids : ∀ obj, ∀ r ∈ tx.ops.rows obj, r.id.counter < next := fun obj r hr =>
    (h.ids obj r hr).trans_le hle
  refine ⟨⟨fun obj r hr => ?_, fun obj => ?_, fun obj hm => ?_, fun p hp => ?_⟩, hle, hbatch⟩
  · show r.id.counter < next
    rcases hrows obj with ⟨-, hwalk⟩ | ⟨-, hsame⟩
    · rcases List.mem_append.mp ((subperm_applyObj hwalk).subset (List.mem_map_of_mem hr)) with
        hid | hid
      · obtain ⟨r', hr', hid⟩ := List.mem_map.mp hid
        rw [← hid]
        exact hids obj r' hr'
      · obtain ⟨c, hc, hid⟩ := List.mem_map.mp hid
        rw [← hid]
        exact hops obj c hc
    · exact hids obj r (hsame ▸ hr)
  · rcases hrows obj with ⟨-, hwalk⟩ | ⟨-, hsame⟩
    · obtain ⟨l, hperm, hsub⟩ := subperm_applyObj hwalk
      exact hperm.nodup_iff.mp ((nodup_ids_batch h hb).sublist hsub)
    · show ((s.rows obj).map Row.id).Nodup
      rw [hsame]
      exact h.nodup obj
  · rcases hrows obj with ⟨⟨p, hp, hobj⟩, -⟩ | ⟨-, hsame⟩
    · exact absurd (fun id hid => (hb.older p hp id (hobj ▸ hid)).trans (hbatch p hp)) hm
    · show s.rows obj = []
      rw [hsame]
      exact h.rows obj fun hmade => hm fun id hid => (hmade id hid).trans_le hle
  · show p.1.counter < next
    have hp : p ∈ (tx.ops.withMade batch).objInfo := hinfo ▸ hp
    rcases List.mem_append.mp hp with hp | hp
    · obtain ⟨q, hq, hmade⟩ := List.mem_filterMap.mp hp
      obtain ⟨t, -, rfl⟩ := Option.map_eq_some_iff.mp hmade
      exact hbatch q hq
    · exact (h.objects p hp).trans_le hle

/-- **A merge keeps the index right.** -/
theorem keeps_merge (h : tx.Keeps RowsIndexed) (hb : tx.Fits batch)
    (heq : tx.merge batch = some tx') : tx'.Keeps RowsIndexed := by
  obtain ⟨hfresh, -, -⟩ := fresh_merge h.toFresh hb heq
  refine ⟨hfresh, fun obj t ht => ?_⟩
  obtain ⟨s, hs, rfl⟩ := Option.map_eq_some_iff.mp heq
  obtain ⟨hinfo, hrows⟩ := applyBatch_rows hs
  have ht : (tx.ops.withMade batch).objectType obj = some t := by
    rw [← ht]
    unfold OpSet.objectType
    rw [hinfo]
  have hbefore : RowsIndexed obj t (tx.ops.rows obj) := by
    rcases objectType_withMade_cases ht with hsome | ⟨p, hp, rfl⟩
    · obtain ⟨t', ht'⟩ := Option.isSome_iff_exists.mp hsome
      have := objectType_withMade tx.ops batch hb.objects ht'
      rw [ht] at this
      cases this
      exact h.kept obj t ht'
    · rw [hb.empty p hp]
      exact rowsIndexed_invariant.nil _ t
  show RowsIndexed obj t (s.rows obj)
  rcases hrows obj with ⟨-, hwalk⟩ | ⟨-, hsame⟩
  · rw [ht] at hwalk
    cases t with
    | map =>
      have hmap := hb.mapBatch ht
      exact mapRows_applyObj hbefore hmap
        ((sorted_orderOps_map fun c hc => ⟨hmap.key c hc, hmap.insert c hc⟩).imp fun {a b} hab =>
          Prod.Lex.monotone_fst _ _ hab) hwalk
    | list => exact indexedRows_applyObj hbefore (hb.listBatch h.toFresh ht) hwalk
    | text | table => trivial
  · rw [hsame]
    exact hbefore

/-! ## Documents -/

/-- `am_fork`: the same operations, for another actor. -/
def fork (tx : Tx A) (actor : A) : Tx A :=
  { tx with actor := actor, startOp := tx.startOp + tx.pending.length, pending := [] }

/-- A document made by calls, forks and merges. -/
inductive Reached : Tx A → Prop
  | new (actor : A) : Reached (.new actor)
  | call {tx : Tx A} (h : Reached tx) (c : Call A) : Reached (tx.call c)
  | fork {tx : Tx A} (h : Reached tx) (actor : A) : Reached (tx.fork actor)
  | merge {tx tx' : Tx A} {batch : List (OpId A × Op A)} (h : Reached tx) (hb : tx.Fits batch)
    (heq : tx.merge batch = some tx') : Reached tx'

theorem keeps_fork {I : ObjId A → ObjType → List (Row A) → Prop} (h : tx.Keeps I) (actor : A) :
    (tx.fork actor).Keeps I where
  ids := h.ids
  nodup := h.nodup
  rows := h.rows
  objects := h.objects
  kept := h.kept

/-- Its maps are sorted, and its lists have a right index. -/
theorem Reached.keeps (h : tx.Reached) : tx.Keeps RowsIndexed := by
  induction h with
  | new actor => exact keeps_new rowsIndexed_invariant actor
  | call _ c ih => exact keeps_call rowsIndexed_invariant ih c
  | fork _ actor ih => exact keeps_fork ih actor
  | merge _ hb heq ih => exact keeps_merge ih hb heq

theorem Reached.sound (h : tx.Reached) : tx.Sound := by
  rw [sound_iff]
  refine ⟨h.keeps.toFresh, fun obj t ht hl => ?_⟩
  subst hl
  have hindexed : IndexedRows (tx.ops.rows obj) := h.keeps.kept obj .list ht
  exact hindexed.toListRows

end Tx

end AutomergeR
