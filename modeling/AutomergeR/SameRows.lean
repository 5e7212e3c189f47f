import AutomergeR.MergedLog

/-! # The log determines the columns

Two op sets that record the same log, with all details, have the same rows in the same order
(`same_rows`). The rows agree in all that a read looks at but the index: a successor may
have come before or behind another one.
-/

namespace AutomergeR

variable {A : Type}

/-- Rows of the same operation with the same successors. -/
structure Row.Same (r r' : Row A) : Prop where
  id : r.id = r'.id
  key : r.key = r'.key
  insert : r.insert = r'.insert
  action : r.action = r'.action
  succ : r.succ.Perm r'.succ
  visible : r.visible = r'.visible

theorem forall₂_of_map_eq {B C : Type} {f : B → C} {R : B → B → Prop} : ∀ {l l' : List B},
    l.map f = l'.map f → (∀ x ∈ l, ∀ y ∈ l', f x = f y → R x y) → List.Forall₂ R l l'
  | [], [], _, _ => .nil
  | [], _ :: _, h, _ => by cases h
  | _ :: _, [], h, _ => by cases h
  | x :: l, y :: l', h, hR => by
    rw [List.map_cons, List.map_cons, List.cons.injEq] at h
    exact .cons (hR x List.mem_cons_self y List.mem_cons_self h.1)
      (forall₂_of_map_eq h.2 fun x' hx y' hy =>
        hR x' (List.mem_cons_of_mem x hx) y' (List.mem_cons_of_mem y hy))

theorem sorted_unique {B : Type} [LinearOrder B] {l l' : List B} (h : l.Pairwise (· < ·))
    (h' : l'.Pairwise (· < ·)) (hmem : ∀ x, x ∈ l ↔ x ∈ l') : l = l' :=
  ((List.perm_ext_iff_of_nodup (h.imp ne_of_lt) (h'.imp ne_of_lt)).mpr hmem).eq_of_pairwise' h h'

/-- A row of one op set has its twin in the other. -/
theorem Represents.twin {s s' : OpSet A} {S : Log A} (h : Represents s S) (h' : Represents s' S)
    {obj : ObjId A} {r : Row A} (hr : r ∈ s.rows obj) :
    ∃ r' ∈ s'.rows obj, r.id = r'.id ∧ r.key = r'.key ∧ r.insert = r'.insert ∧ r.action = r'.action := by
  obtain ⟨p, hp, rfl, hdel, hrec⟩ := h.row obj r hr
  obtain ⟨r', hr', hrec'⟩ := h'.op p hp hdel
  exact ⟨r', hr', hrec.id.trans hrec'.id.symm, hrec.key.trans hrec'.key.symm,
    hrec.insert.trans hrec'.insert.symm, hrec.action.trans hrec'.action.symm⟩

/-- What a row says of its operation is said in both op sets. -/
theorem Represents.mem_map_iff {s s' : OpSet A} {S : Log A} (h : Represents s S)
    (h' : Represents s' S) {B : Type} {f : Row A → B} (hf : ∀ r r' : Row A, r.id = r'.id →
      r.key = r'.key → f r = f r') {obj : ObjId A} (x : B) :
    x ∈ (s.rows obj).map f ↔ x ∈ (s'.rows obj).map f := by
  have hsub : ∀ {s s' : OpSet A}, Represents s S → Represents s' S →
      x ∈ (s.rows obj).map f → x ∈ (s'.rows obj).map f := by
    intro s s' h h' hx
    obtain ⟨r, hr, rfl⟩ := List.mem_map.mp hx
    obtain ⟨r', hr', hid, hkey, -, -⟩ := h.twin h' hr
    exact List.mem_map.mpr ⟨r', hr', (hf r r' hid hkey).symm⟩
  exact ⟨hsub h h', hsub h' h⟩

variable [LinearOrder A] {s s' : OpSet A} {S : Log A} {obj : ObjId A} {t : ObjType}

/-! ## The order of the rows -/

/-- The elements of a sequence are its insertions. -/
theorem SeqRows.flat_elements {rows : List (Row A)} (h : SeqRows rows) : flat (elements rows).2 = rows := by
  have hrows := elements_rows rows
  rwa [h.before, List.nil_append] at hrows

theorem SeqRows.mem_elements {rows : List (Row A)} (h : SeqRows rows) {r : Row A} (hr : r ∈ rows)
    (hins : r.insert = true) : ∃ el ∈ (elements rows).2, el.1 = r := by
  rw [← h.flat_elements] at hr
  obtain ⟨el, hel, hr⟩ := List.mem_flatMap.mp hr
  refine ⟨el, hel, ?_⟩
  rcases List.mem_cons.mp hr with heq | hr
  · exact heq.symm
  · rw [((h.registers el hel).updates r hr).1] at hins
    cases hins

theorem SeqRows.mem_rest {rows : List (Row A)} (h : SeqRows rows) {r : Row A} (hr : r ∈ rows)
    (hins : r.insert = false) :
    ∃ el ∈ (elements rows).2, r ∈ el.2 ∧ r.key = .seq (some el.1.id) := by
  rw [← h.flat_elements] at hr
  obtain ⟨el, hel, hr⟩ := List.mem_flatMap.mp hr
  refine ⟨el, hel, ?_⟩
  rcases List.mem_cons.mp hr with heq | hr
  · rw [heq, (h.registers el hel).insert] at hins
    cases hins
  · exact ⟨hr, ((h.registers el hel).updates r hr).2⟩

theorem SeqRows.mem_rows {rows : List (Row A)} (h : SeqRows rows) {el : Row A × List (Row A)}
    (hel : el ∈ (elements rows).2) : ∀ r ∈ el.1 :: el.2, r ∈ rows := by
  intro r hr
  rw [← h.flat_elements]
  exact List.mem_flatMap.mpr ⟨el, hel, hr⟩

theorem same_order_map (h : Represents s S) (h' : Represents s' S) (hrows : MapOrder (s.rows obj))
    (hrows' : MapOrder (s'.rows obj)) : (s.rows obj).map Row.id = (s'.rows obj).map Row.id := by
  let rank (r : Row A) : String ×ₗ OpId A := toLex (r.mapKey, r.id)
  have hsorted : ∀ {l : List (Row A)}, MapOrder l → (l.map rank).Pairwise (· < ·) := by
    intro l hl
    rw [List.pairwise_map]
    refine hl.imp fun {x y} hxy => Prod.Lex.lt_iff.mpr ?_
    exact hxy
  have hranks := sorted_unique (hsorted hrows) (hsorted hrows') fun x =>
    h.mem_map_iff h' (fun r r' hid hkey => by
      show toLex (r.mapKey, r.id) = toLex (r'.mapKey, r'.id)
      unfold Row.mapKey
      rw [hid, hkey]) x
  have hids := congrArg (List.map fun x : String ×ₗ OpId A => (ofLex x).2) hranks
  rwa [List.map_map, List.map_map] at hids

/-- The elements of a sequence are the same, as there is one order for them. -/
theorem same_elements (h : Represents s S) (h' : Represents s' S) (hrows : SeqRows (s.rows obj))
    (hrows' : SeqRows (s'.rows obj)) :
    ((elements (s.rows obj)).2.map fun el => el.1.elem) =
      (elements (s'.rows obj)).2.map fun el => el.1.elem := by
  have hsub : ∀ {s s' : OpSet A}, Represents s S → Represents s' S → SeqRows (s.rows obj) →
      SeqRows (s'.rows obj) → ∀ y, (y ∈ (elements (s.rows obj)).2.map fun el => el.1.elem) →
        y ∈ (elements (s'.rows obj)).2.map fun el => el.1.elem := by
    intro s s' h h' hrows hrows' y hy
    obtain ⟨el, hel, rfl⟩ := List.mem_map.mp hy
    obtain ⟨r', hr', hid, hkey, hins, -⟩ := h.twin h' (hrows.mem_rows hel el.1 List.mem_cons_self)
    obtain ⟨el', hel', heq⟩ := hrows'.mem_elements hr' (hins ▸ (hrows.registers el hel).insert)
    refine List.mem_map.mpr ⟨el', hel', ?_⟩
    unfold Row.elem
    rw [heq, hid, hkey]
  have hnd : ∀ {s : OpSet A}, Represents s S →
      (((elements (s.rows obj)).2.map fun el => el.1.elem).map Rga.Elem.id).Nodup := by
    intro s h
    rw [List.map_map]
    exact (h.nodup obj).sublist (elementIds_sublist (s.rows obj))
  refine hrows.ordered.unique hrows'.ordered ?_ (hnd h)
  exact (List.perm_ext_iff_of_nodup (hnd h).of_map (hnd h').of_map).mpr fun y =>
    ⟨hsub h h' hrows hrows' y, hsub h' h hrows' hrows y⟩

theorem same_order_seq (h : Represents s S) (h' : Represents s' S) (hrows : SeqRows (s.rows obj))
    (hrows' : SeqRows (s'.rows obj)) : (s.rows obj).map Row.id = (s'.rows obj).map Row.id := by
  -- the operations on one element are the same
  have hsub : ∀ {s s' : OpSet A}, Represents s S → Represents s' S → SeqRows (s.rows obj) →
      SeqRows (s'.rows obj) → ∀ el ∈ (elements (s.rows obj)).2, ∀ el' ∈ (elements (s'.rows obj)).2,
        el.1.elem = el'.1.elem → ∀ x ∈ el.2.map Row.id, x ∈ el'.2.map Row.id := by
    intro s s' h h' hrows hrows' el hel el' hel' heq x hx
    obtain ⟨r, hr, rfl⟩ := List.mem_map.mp hx
    obtain ⟨hins, hkey⟩ := (hrows.registers el hel).updates r hr
    obtain ⟨r', hr', hid, hkey', hins', -⟩ :=
      h.twin h' (hrows.mem_rows hel r (List.mem_cons_of_mem _ hr))
    obtain ⟨el'', hel'', hmem, hkey''⟩ := hrows'.mem_rest hr' (hins' ▸ hins)
    have hsame : el''.1.id = el'.1.id := by
      have hel : el.1.id = el'.1.id := congrArg Rga.Elem.id heq
      rw [← hel]
      rw [← hkey', hkey] at hkey''
      exact (Option.some.inj (Key.seq.inj hkey'')).symm
    have hnd : ((elements (s'.rows obj)).2.map fun el => el.1.id).Nodup :=
      (h'.nodup obj).sublist (elementIds_sublist (s'.rows obj))
    rw [← List.inj_on_of_nodup_map hnd hel'' hel' hsame]
    exact List.mem_map.mpr ⟨r', hmem, hid.symm⟩
  have hels := forall₂_of_map_eq (R := fun el el' : Row A × List (Row A) =>
      (el.1 :: el.2).map Row.id = (el'.1 :: el'.2).map Row.id) (same_elements h h' hrows hrows')
    fun el hel el' hel' heq => by
      have hsorted : ∀ {r : Row A} {rest : List (Row A)}, RegisterRows r rest →
          (rest.map Row.id).Pairwise (· < ·) := fun hreg =>
        List.pairwise_map.mpr (List.pairwise_cons.mp hreg.sorted).2
      have hid : el.1.id = el'.1.id := congrArg Rga.Elem.id heq
      rw [List.map_cons, List.map_cons, hid, sorted_unique (hsorted (hrows.registers el hel))
        (hsorted (hrows'.registers el' hel')) fun x => ⟨hsub h h' hrows hrows' el hel el' hel' heq x,
          hsub h' h hrows' hrows el' hel' el hel heq.symm x⟩]
  rw [← hrows.flat_elements, ← hrows'.flat_elements]
  unfold flat
  rw [List.map_flatMap, List.map_flatMap]
  generalize (elements (s.rows obj)).2 = els at hels
  generalize (elements (s'.rows obj)).2 = els' at hels
  induction hels with
  | nil => rfl
  | cons hel _ ih => rw [List.flatMap_cons, List.flatMap_cons, hel, ih]

theorem same_order (h : Represents s S) (h' : Represents s' S) (hrows : RowsInOrder t (s.rows obj))
    (hrows' : RowsInOrder t (s'.rows obj)) : (s.rows obj).map Row.id = (s'.rows obj).map Row.id := by
  cases t with
  | map | table => exact same_order_map h h' hrows hrows'
  | list | text => exact same_order_seq h h' hrows hrows'

/-! ## The rows -/

omit [LinearOrder A] in
theorem unhidden_perm {r r' : Row A} (hact : r.action = r'.action) (hsucc : r.succ.Perm r'.succ) :
    r.unhidden = r'.unhidden := by
  unfold Row.unhidden
  rw [hact, hsucc.all_eq, hsucc.isEmpty_eq]

variable (hS : S.WF) (h : Represents s S) (h' : Represents s' S) (hd : Detailed s S)
  (hd' : Detailed s' S)

include hS h h' hd hd'

/-- Rows of the same operation agree. -/
theorem same_row {r r' : Row A} (hr : r ∈ s.rows obj) (hr' : r' ∈ s'.rows obj) (hid : r.id = r'.id) :
    r.Same r' := by
  obtain ⟨p, hp, -, -, hrec⟩ := h.row obj r hr
  obtain ⟨q, hq, -, -, hrec'⟩ := h'.row obj r' hr'
  obtain rfl := hS.unique p hp q hq (hrec.id.symm.trans (hid.trans hrec'.id))
  have hact : r.action = r'.action := hrec.action.trans hrec'.action.symm
  have hsucc : r.succ.Perm r'.succ := by
    refine (List.perm_ext_iff_of_nodup (hd.succ obj r hr).nodup.of_map
      (hd'.succ obj r' hr').nodup.of_map).mpr fun x => ?_
    rw [(hd.succ obj r hr).mem, (hd'.succ obj r' hr').mem, hid]
  refine ⟨hid, hrec.key.trans hrec'.key.symm, hrec.insert.trans hrec'.insert.symm, hact, hsucc, ?_⟩
  have hind : r.visible = (!r.isInc && r.unhidden) := hd.indexed obj r hr
  have hind' : r'.visible = (!r'.isInc && r'.unhidden) := hd'.indexed obj r' hr'
  rw [hind, hind', unhidden_perm hact hsucc]
  unfold Row.isInc
  rw [hact]

/-- **Op sets that record the same log have the same rows.** -/
theorem same_rows (obj : ObjId A) : List.Forall₂ Row.Same (s.rows obj) (s'.rows obj) := by
  refine forall₂_of_map_eq (f := Row.id) ?_ fun r hr r' hr' hid => same_row hS h h' hd hd' hr hr' hid
  by_cases ht : ∃ t, S.MadeAs obj t
  · obtain ⟨t, ht⟩ := ht
    exact same_order h h' (hd.order obj t ht) (hd'.order obj t ht)
  · -- what was not made has no rows
    have hnil : ∀ {s : OpSet A}, Represents s S → s.rows obj = [] := by
      refine fun h => List.eq_nil_iff_forall_not_mem.mpr fun r hr => ht ?_
      obtain ⟨p, hp, rfl, -, -⟩ := h.row obj r hr
      obtain ⟨t, ht, -⟩ := (hS.rooted p hp).typed
      exact ⟨t, ht⟩
    rw [hnil h, hnil h']

end AutomergeR
