import AutomergeR.Batch
import AutomergeR.ListIndex

/-! # `Top` along a register

Whatever a batch deletes and adds, in the end the last visible operation of an element is
named and no other is (`Tops.row_named`). The one thing `Top` gets wrong is an increment that
names an operation other than a counter: `add_succ` hides that operation, and `Top` takes it
for visible.
-/

namespace AutomergeR

variable {A : Type}

/-! ## Along a register -/

namespace Entry

def id : Entry A → OpId A
  | .doc r _ => r.id
  | .change c => c.id

def top : Entry A → Top A
  | .doc r _ => .doc r.id
  | .change c => .changeIndex c.id

def isChange : Entry A → Bool
  | .doc _ _ => false
  | .change _ => true

/-- Whether the batch deletes a row. -/
def deleted (preds : List (OpId A × Option ℤ)) : Bool := preds.any fun s => s.2.isNone

/-- Whether the operation is visible behind the batch. -/
def shown : Entry A → Bool
  | .doc r preds => r.visible && !deleted preds
  | .change c => c.visible

/-- Whether it is a row that was visible before. -/
def wasShown : Entry A → Bool
  | .doc r _ => r.visible
  | .change _ => false

/-- The index is right, and increments name counters. -/
def Ok : Entry A → Prop
  | .doc r preds => r.Indexed ∧ ∀ s ∈ preds, s.2.isSome = true → r.action.isCounter = true
  | .change c => ∀ s ∈ c.succ, s.2.isSome = true → c.op.action.isCounter = true

end Entry

namespace Top

/-- The operation that is named, from the batch or from the document. -/
def changed : Top A → List (OpId A)
  | .changeIndex id => [id]
  | _ => []

def docs : Top A → List (OpId A)
  | .doc id => [id]
  | _ => []

def ids : Top A → List (OpId A)
  | .nothing => []
  | .changeIndex id | .doc id | .expose id => [id]

/-- A visible row is deleted. -/
def hide : Top A → Top A
  | .doc id => .expose id
  | t => t

@[simp] theorem hide_hide (t : Top A) : t.hide.hide = t.hide := by cases t <;> rfl

@[simp] theorem ids_hide (t : Top A) : t.hide.ids = t.ids := by cases t <;> rfl

theorem changed_subset (t : Top A) : t.changed ⊆ t.ids := by
  cases t <;> simp [changed, ids]

theorem docs_subset (t : Top A) : t.docs ⊆ t.ids := by
  cases t <;> simp [docs, ids]

end Top

namespace Tops

open Entry

variable {t : Tops A} {e : Entry A} {es : List (Entry A)} {id : OpId A}

theorem process_hidden (hok : e.Ok) (h : e.shown = false) :
    t.process e = { t with top := if e.wasShown then t.top.hide else t.top } := by
  cases e with
  | doc r preds =>
    have hidx : (!r.isInc && r.unhidden) = r.visible := hok.1.symm
    unfold process
    simp only [hidx]
    have hshown : (r.visible && !deleted preds) = false := h
    cases hv : r.visible with
    | false => simp [wasShown, hv]
    | true =>
      rw [hv, Bool.true_and, Bool.not_eq_false'] at hshown
      unfold deleted at hshown
      simp only [hshown, wasShown, hv, if_true]
      cases htop : t.top <;> simp [Top.hide, ← htop]
  | change c =>
    unfold shown at h
    simp [process, wasShown, h]

/-- What an operation that stays visible does. -/
theorem process_shown (hok : e.Ok) (h : e.shown = true) : t.process e =
    ⟨e.top, t.conflicted ++ t.top.changed,
      t.conflicts ++ (if e.isChange then t.top.docs else []), t.exposed⟩ := by
  cases e with
  | doc r preds =>
    have hidx : (!r.isInc && r.unhidden) = r.visible := hok.1.symm
    unfold process
    simp only [hidx]
    unfold shown deleted at h
    rw [Bool.and_eq_true, Bool.not_eq_true'] at h
    simp only [h.1, h.2, if_true, isChange, Bool.false_eq_true, if_false]
    cases htop : t.top <;> simp [Top.changed, Entry.top]
  | change c =>
    unfold shown at h
    unfold process
    simp only [h, if_true, isChange]
    cases htop : t.top <;> simp [Top.changed, Top.docs, Entry.top]

/-- Past operations that are not visible. -/
theorem run_hidden (hok : ∀ e ∈ es, e.Ok) (h : ∀ e ∈ es, e.shown = false) : es.foldl process t =
    { t with top := if es.any wasShown then t.top.hide else t.top } := by
  induction es generalizing t with
  | nil => rfl
  | cons e es ih =>
    rw [List.foldl_cons, process_hidden (hok e List.mem_cons_self) (h e List.mem_cons_self),
      ih (fun x hx => hok x (List.mem_cons_of_mem _ hx)) fun x hx => h x (List.mem_cons_of_mem _ hx)]
    cases hw : e.wasShown <;> cases hws : es.any wasShown <;> simp [hw, hws]

/-- What a run comes to name. -/
structure Extends (t t' : Tops A) (ids : List (OpId A)) : Prop where
  exposed : t'.exposed = t.exposed
  top : ∀ id ∈ t'.top.ids, id ∈ t.top.ids ∨ id ∈ ids
  conflicted : ∀ id, id ∈ t.conflicted → id ∈ t'.conflicted
  conflicts : ∀ id, id ∈ t.conflicts → id ∈ t'.conflicts
  of_conflicted : ∀ id ∈ t'.conflicted, id ∈ t.conflicted ∨ id ∈ t.top.ids ∨ id ∈ ids
  of_conflicts : ∀ id ∈ t'.conflicts, id ∈ t.conflicts ∨ id ∈ t.top.ids ∨ id ∈ ids

theorem extends_process (hok : e.Ok) : Extends t (t.process e) [e.id] := by
  cases h : e.shown with
  | false =>
    rw [process_hidden hok h]
    refine ⟨rfl, fun id hid => Or.inl ?_, fun _ h => h, fun _ h => h, fun _ h => Or.inl h,
      fun _ h => Or.inl h⟩
    cases hw : e.wasShown <;> simpa [hw] using hid
  | true =>
    rw [process_shown hok h]
    refine ⟨rfl, fun id hid => Or.inr ?_, fun _ h => List.mem_append_left _ h,
      fun _ h => List.mem_append_left _ h, fun id hid => ?_, fun id hid => ?_⟩
    · cases e <;> exact hid
    · rcases List.mem_append.mp hid with hid | hid
      · exact Or.inl hid
      · exact Or.inr (Or.inl (t.top.changed_subset hid))
    · rcases List.mem_append.mp hid with hid | hid
      · exact Or.inl hid
      · cases hc : e.isChange with
        | true =>
          rw [hc, if_pos rfl] at hid
          exact Or.inr (Or.inl (t.top.docs_subset hid))
        | false =>
          rw [hc] at hid
          cases hid

theorem extends_run (hok : ∀ e ∈ es, e.Ok) :
    Extends t (es.foldl process t) (es.map Entry.id) := by
  induction es generalizing t with
  | nil =>
    exact ⟨rfl, fun _ h => Or.inl h, fun _ h => h, fun _ h => h, fun _ h => Or.inl h,
      fun _ h => Or.inl h⟩
  | cons e es ih =>
    have h₁ := extends_process (t := t) (hok e List.mem_cons_self)
    have h₂ := ih (t := t.process e) fun x hx => hok x (List.mem_cons_of_mem _ hx)
    have hid : ∀ id ∈ [e.id], id ∈ (e :: es).map Entry.id := by
      intro id hid
      rw [List.mem_singleton.mp hid]
      exact List.mem_cons_self
    have hids : ∀ id ∈ es.map Entry.id, id ∈ (e :: es).map Entry.id :=
      fun id hid => List.mem_cons_of_mem _ hid
    have htop : ∀ id ∈ (t.process e).top.ids, id ∈ t.top.ids ∨ id ∈ (e :: es).map Entry.id :=
      fun id h => (h₁.top id h).imp_right (hid id)
    refine ⟨h₂.exposed.trans h₁.exposed, ?_, fun id h => h₂.conflicted id (h₁.conflicted id h),
      fun id h => h₂.conflicts id (h₁.conflicts id h), ?_, ?_⟩
    · intro id h
      rcases h₂.top id h with h | h
      · exact htop id h
      · exact Or.inr (hids id h)
    · intro id h
      rcases h₂.of_conflicted id h with h | h | h
      · exact (h₁.of_conflicted id h).imp_right (Or.imp_right (hid id))
      · exact Or.inr (htop id h)
      · exact Or.inr (Or.inr (hids id h))
    · intro id h
      rcases h₂.of_conflicts id h with h | h | h
      · exact (h₁.of_conflicts id h).imp_right (Or.imp_right (hid id))
      · exact Or.inr (htop id h)
      · exact Or.inr (Or.inr (hids id h))

theorem mem_reset_exposed : id ∈ t.reset.exposed ↔ id ∈ t.exposed ∨ t.top = .expose id := by
  unfold reset
  cases htop : t.top <;> simp [eq_comm]

@[simp] theorem reset_conflicted (t : Tops A) : t.reset.conflicted = t.conflicted := by
  unfold reset
  cases t.top <;> rfl

@[simp] theorem reset_conflicts (t : Tops A) : t.reset.conflicts = t.conflicts := by
  unfold reset
  cases t.top <;> rfl

/-- The first visible operation of a run takes the place of the one named before. -/
theorem run_split (hok : ∀ e ∈ es, e.Ok) (h : es.any shown = true) :
    ∃ a e b, es = a ++ e :: b ∧ e.shown = true ∧ (∀ x ∈ a, x.shown = false) ∧
      es.foldl process t = b.foldl process ⟨e.top, t.conflicted ++ t.top.changed,
        t.conflicts ++ (if e.isChange then
          (if a.any wasShown then t.top.hide else t.top).docs else []), t.exposed⟩ := by
  obtain ⟨e, hfind⟩ := Option.isSome_iff_exists.mp (List.find?_isSome.mpr (List.any_eq_true.mp h))
  obtain ⟨hs, a, b, rfl, ha⟩ := List.find?_eq_some_iff_append.mp hfind
  have ha : ∀ x ∈ a, x.shown = false := fun x hx => by simpa using ha x hx
  refine ⟨a, e, b, rfl, hs, ha, ?_⟩
  rw [List.foldl_append, List.foldl_cons,
    run_hidden (fun x hx => hok x (List.mem_append_left _ hx)) ha,
    process_shown (hok e (by simp)) hs]
  congr 2
  split <;> cases t.top <;> rfl

/-- Where there is a visible operation behind, the one named before is named no more. -/
theorem run_leaves (hok : ∀ e ∈ es, e.Ok) (h : es.any shown = true)
    (hid : id ∉ es.map Entry.id) : id ∉ (es.foldl process t).top.ids := by
  obtain ⟨a, e, b, rfl, -, -, hrun⟩ := run_split (t := t) hok h
  rw [hrun]
  have hext := extends_run (t := ⟨e.top, t.conflicted ++ t.top.changed,
    t.conflicts ++ (if e.isChange then
      (if a.any wasShown then t.top.hide else t.top).docs else []), t.exposed⟩)
    fun x hx => hok x (List.mem_append_right _ (List.mem_cons_of_mem _ hx))
  intro hmem
  rcases hext.top id hmem with hmem | hmem
  · apply hid
    have heq : id = e.id := by
      cases e <;> exact List.mem_singleton.mp hmem
    rw [heq]
    simp
  · apply hid
    rw [List.map_append, List.map_cons]
    exact List.mem_append_right _ (List.mem_cons_of_mem _ hmem)

variable {pre post : List (Entry A)}

/-- What is known of an operation before a walk gets to it. -/
structure Unmet (t : Tops A) (id : OpId A) : Prop where
  exposed : t.exposed = []
  top : id ∉ t.top.ids
  conflicted : id ∉ t.conflicted
  conflicts : id ∉ t.conflicts

theorem unmet_run (hok : ∀ x ∈ pre, x.Ok) {id : OpId A} (h : id ∉ pre.map Entry.id) :
    Unmet (pre.foldl process start) id := by
  have hrun := extends_run (t := start) hok
  refine ⟨hrun.exposed, fun hid => ?_, fun hid => ?_, fun hid => ?_⟩
  · rcases hrun.top _ hid with hid | hid
    · cases hid
    · exact h hid
  · rcases hrun.of_conflicted _ hid with hid | hid | hid
    · cases hid
    · cases hid
    · exact h hid
  · rcases hrun.of_conflicts _ hid with hid | hid | hid
    · cases hid
    · cases hid
    · exact h hid

variable {c : ChangeOp A} {r : Row A} {preds : List (OpId A × Option ℤ)}

/-- An operation of the batch is in conflict with what is visible behind it. -/
theorem conflicted_iff (h : t.Unmet c.id) (hv : c.visible = true)
    (hokc : (Entry.change c).Ok) (hok : ∀ x ∈ post, x.Ok) (hpost : c.id ∉ post.map Entry.id) :
    c.id ∈ (post.foldl process (t.process (.change c))).conflicted ↔ post.any shown = true := by
  rw [process_shown hokc hv]
  cases hany : post.any shown with
  | true =>
    obtain ⟨a, x, b, rfl, -, -, hrun⟩ := run_split (t := ⟨Entry.top (.change c),
      t.conflicted ++ t.top.changed, t.conflicts ++ t.top.docs, t.exposed⟩) hok hany
    refine iff_of_true ?_ rfl
    show c.id ∈ (List.foldl process ⟨Entry.top (.change c),
      t.conflicted ++ t.top.changed, t.conflicts ++ t.top.docs, t.exposed⟩ (a ++ x :: b)).conflicted
    rw [hrun]
    apply (extends_run fun y hy => hok y (by simp [hy])).conflicted
    exact List.mem_append_right _ List.mem_cons_self
  | false =>
    have hnone : ∀ x ∈ post, x.shown = false := fun x hx => by
      simpa using List.any_eq_false.mp hany x hx
    rw [run_hidden hok hnone]
    refine iff_of_false (fun hid => ?_) Bool.false_ne_true
    rcases List.mem_append.mp hid with hid | hid
    · exact h.conflicted hid
    · exact h.top (t.top.changed_subset hid)

/-- A row that stays visible is named in the end if nothing behind it is visible. -/
theorem doc_named (h : t.Unmet r.id) (hokr : (Entry.doc r preds).Ok)
    (hs : (Entry.doc r preds).shown = true) (hok : ∀ x ∈ post, x.Ok)
    (hpost : r.id ∉ post.map Entry.id) (htop : r.top = !post.any wasShown) :
    (r.id ∈ (post.foldl process (t.process (.doc r preds))).reset.exposed ∨
      r.top = true ∧ r.id ∉ (post.foldl process (t.process (.doc r preds))).reset.conflicts) ↔
      post.any shown = false := by
  have hstep : t.process (.doc r preds) =
      ⟨.doc r.id, t.conflicted ++ t.top.changed, t.conflicts, []⟩ := by
    rw [process_shown hokr hs, h.exposed]
    simp [isChange, Entry.top]
  rw [hstep, reset_conflicts, mem_reset_exposed]
  have hexposed := (extends_run (t := ⟨.doc r.id, t.conflicted ++ t.top.changed, t.conflicts, []⟩)
    hok).exposed
  rw [hexposed]
  cases hany : post.any shown with
  | true =>
    have hleaves := run_leaves (t := ⟨.doc r.id, t.conflicted ++ t.top.changed, t.conflicts, []⟩)
      hok hany hpost
    refine iff_of_false ?_ (by simp)
    rintro ((hid | hid) | ⟨ht, hid⟩)
    · cases hid
    · rw [hid] at hleaves
      exact hleaves List.mem_cons_self
    · -- the row was the last that was visible, so what is visible behind it is new
      apply hid
      obtain ⟨a, x, b, rfl, hx, -, hrun⟩ := run_split
        (t := ⟨.doc r.id, t.conflicted ++ t.top.changed, t.conflicts, []⟩) hok hany
      rw [ht, List.any_append, List.any_cons, eq_comm, Bool.not_eq_true', Bool.or_eq_false_iff,
        Bool.or_eq_false_iff] at htop
      obtain ⟨ha, hwas, -⟩ := htop
      have hchange : x.isChange = true := by
        cases x with
        | doc r' preds' =>
          have hv : (r'.visible && !deleted preds') = true := hx
          rw [show r'.visible = false from hwas] at hv
          cases hv
        | change c => rfl
      rw [hrun]
      apply (extends_run fun y hy => hok y (by simp [hy])).conflicts
      rw [hchange, ha]
      exact List.mem_append_right _ List.mem_cons_self
  | false =>
    have hnone : ∀ x ∈ post, x.shown = false := fun x hx => by
      simpa using List.any_eq_false.mp hany x hx
    rw [run_hidden hok hnone]
    refine iff_of_true ?_ rfl
    cases hwas : post.any wasShown with
    | true => exact Or.inl (Or.inr rfl)
    | false =>
      rw [hwas] at htop
      exact Or.inr ⟨htop, h.conflicts⟩

end Tops

/-! ## Registers -/

/-- A row is named if and only if it is the last of its element that is visible. -/
def Named (r : Row A) (rest : List (Row A)) : Prop :=
  r.top = (r.visible && !rest.any Row.visible)

theorem along_named {rows : List (Row A)} :
    OpSet.Along Named rows ↔ OpSet.TopLast rows ∧ OpSet.NamesLast rows := by
  induction rows with
  | nil => exact ⟨fun _ => ⟨trivial, trivial⟩, fun _ => trivial⟩
  | cons r rows ih =>
    have hcons : OpSet.NamesLast (r :: rows) ↔ (r.visible = true →
        (∀ x ∈ rows.takeWhile fun x => !x.insert, x.visible = false) → r.top = true) ∧
          OpSet.NamesLast rows := Iff.rfl
    rw [OpSet.along_cons, ih, OpSet.topLast_cons, hcons]
    have hany : ∀ rest : List (Row A), rest.any Row.visible = false ↔
        ∀ x ∈ rest, x.visible = false := by
      intro rest
      simp
    constructor
    · rintro ⟨hr, htop, hnamed⟩
      refine ⟨⟨fun ht => ?_, htop⟩, fun hv hrest => ?_, hnamed⟩
      · rw [hr, Bool.and_eq_true, Bool.not_eq_true', hany] at ht
        exact ht
      · rw [hr, hv, (hany _).mpr hrest]
        rfl
    · rintro ⟨⟨hr, htop⟩, hr', hnamed⟩
      refine ⟨?_, htop, hnamed⟩
      unfold Named
      rw [Bool.eq_iff_iff, Bool.and_eq_true, Bool.not_eq_true', hany]
      exact ⟨hr, fun h => hr' h.1 h.2⟩

/-- An insertion and what follows on its element, or nothing. -/
structure IsElement (rows : List (Row A)) : Prop where
  head : ∀ r ∈ rows.head?, r.insert = true
  tail : ∀ r ∈ rows.tail, r.insert = false

theorem along_flatMap {B : Type} {P : Row A → List (Row A) → Prop} {l : List B}
    {f : B → List (Row A)} (h : ∀ x ∈ l, IsElement (f x) ∧ OpSet.Along P (f x)) :
    OpSet.Along P (l.flatMap f) ∧ ∀ r ∈ (l.flatMap f).head?, r.insert = true := by
  induction l with
  | nil => exact ⟨trivial, fun r hr => by cases hr⟩
  | cons x l ih =>
    obtain ⟨hx, hP⟩ := h x List.mem_cons_self
    obtain ⟨ih, hhead⟩ := ih fun y hy => h y (List.mem_cons_of_mem _ hy)
    rw [List.flatMap_cons]
    refine ⟨(OpSet.along_append hhead).mpr ⟨hP, ih⟩, fun r hr => ?_⟩
    rw [List.head?_append] at hr
    cases hfx : (f x).head? with
    | none =>
      rw [hfx] at hr
      exact hhead r hr
    | some first =>
      rw [hfx] at hr
      cases hr
      exact hx.head r hfx

namespace Entry

def doc? : Entry A → Option (Row A)
  | .doc r _ => some r
  | .change _ => none

def change? : Entry A → Option (ChangeOp A)
  | .doc _ _ => none
  | .change c => some c

theorem any_wasShown (es : List (Entry A)) :
    es.any wasShown = (es.filterMap doc?).any Row.visible := by
  induction es with
  | nil => rfl
  | cons e es ih =>
    rw [List.any_cons, ih]
    cases e with
    | doc r preds => rfl
    | change c => rfl

theorem ids_perm (es : List (Entry A)) : (es.map Entry.id).Perm
    ((es.filterMap doc?).map Row.id ++ (es.filterMap change?).map ChangeOp.id) := by
  induction es with
  | nil => exact .nil
  | cons e es ih =>
    cases e with
    | doc r preds => exact ih.cons r.id
    | change c => exact (ih.cons c.id).trans List.perm_middle.symm

end Entry

variable [LinearOrder A]

/-! ### Successors -/

section

variable {r : Row A} {preds : List (OpId A × Option ℤ)}

@[simp] theorem foldl_addSucc_id : (preds.foldl Row.addSucc r).id = r.id := by
  induction preds generalizing r with
  | nil => rfl
  | cons s preds ih => rw [List.foldl_cons, ih, Row.addSucc_id]

@[simp] theorem foldl_addSucc_key : (preds.foldl Row.addSucc r).key = r.key := by
  induction preds generalizing r with
  | nil => rfl
  | cons s preds ih => rw [List.foldl_cons, ih, Row.addSucc_key]

@[simp] theorem foldl_addSucc_insert : (preds.foldl Row.addSucc r).insert = r.insert := by
  induction preds generalizing r with
  | nil => rfl
  | cons s preds ih => rw [List.foldl_cons, ih, Row.addSucc_insert]

@[simp] theorem foldl_addSucc_action : (preds.foldl Row.addSucc r).action = r.action := by
  induction preds generalizing r with
  | nil => rfl
  | cons s preds ih => rw [List.foldl_cons, ih, Row.addSucc_action]

theorem Row.Indexed.foldl_addSucc (h : r.Indexed) : (preds.foldl Row.addSucc r).Indexed := by
  induction preds generalizing r with
  | nil => exact h
  | cons s preds ih => exact ih (h.addSucc s)

theorem foldl_addSucc_visible (h : ∀ s ∈ preds, s.2.isSome = true → r.action.isCounter = true) :
    (preds.foldl Row.addSucc r).visible = (r.visible && !Entry.deleted preds) ∧
      (preds.foldl Row.addSucc r).top = (r.top && !Entry.deleted preds) := by
  induction preds generalizing r with
  | nil => simp [Entry.deleted]
  | cons s preds ih =>
    have hs := h s List.mem_cons_self
    have hrest : ∀ s' ∈ preds, s'.2.isSome = true → (r.addSucc s).action.isCounter = true := by
      intro s' hs' hsome
      rw [Row.addSucc_action]
      exact h s' (List.mem_cons_of_mem _ hs') hsome
    obtain ⟨hv, ht⟩ := ih hrest
    have hdel : Entry.deleted (s :: preds) = (s.2.isNone || Entry.deleted preds) := rfl
    rw [List.foldl_cons, hv, ht, Row.addSucc_visible, Row.addSucc_top, hdel]
    cases hsome : s.2 with
    | none => simp
    | some n => simp [hs (by rw [hsome]; rfl)]

end

namespace Tops

open Entry

section

variable (t : Tops A) (r : Row A)

@[simp] theorem adjust_id : (t.adjust r).id = r.id := by
  unfold adjust
  dsimp only
  split <;> split <;> rfl

@[simp] theorem adjust_key : (t.adjust r).key = r.key := by
  unfold adjust
  dsimp only
  split <;> split <;> rfl

@[simp] theorem adjust_insert : (t.adjust r).insert = r.insert := by
  unfold adjust
  dsimp only
  split <;> split <;> rfl

@[simp] theorem adjust_action : (t.adjust r).action = r.action := by
  unfold adjust
  dsimp only
  split <;> split <;> rfl

@[simp] theorem adjust_succ : (t.adjust r).succ = r.succ := by
  unfold adjust
  dsimp only
  split <;> split <;> rfl

@[simp] theorem adjust_visible : (t.adjust r).visible = r.visible := by
  unfold adjust
  dsimp only
  split <;> split <;> rfl

@[simp] theorem adjust_text : (t.adjust r).text = r.text := by
  unfold adjust
  dsimp only
  split <;> split <;> rfl

theorem adjust_top : (t.adjust r).top = true ↔
    r.id ∈ t.exposed ∨ r.top = true ∧ r.id ∉ t.conflicts := by
  unfold adjust
  by_cases hc : r.id ∈ t.conflicts
  · by_cases he : r.id ∈ t.exposed <;> simp [hc, he]
  · by_cases he : r.id ∈ t.exposed <;> simp [hc, he]

end

/-- An operation has a row, unless it is a deletion. -/
theorem row_change {t : Tops A} {c : ChangeOp A} {new : Row A} : t.row (.change c) = some new ↔
    c.op.action ≠ .delete ∧ c.toRow (t.conflicted.contains c.id) = new := by
  show (if c.op.action = .delete then none else some _) = some new ↔ _
  by_cases hdel : c.op.action = .delete <;> simp [hdel]

theorem row_delete {t : Tops A} {c : ChangeOp A} : t.row (.change c) = none ↔
    c.op.action = .delete := by
  show (if c.op.action = .delete then none else some _) = none ↔ _
  by_cases hdel : c.op.action = .delete <;> simp [hdel]

variable {es pre post : List (Entry A)} {e : Entry A} {new : Row A}

/-- A row of the document behind the batch. -/
theorem doc_row {t : Tops A} {r : Row A} {preds : List (OpId A × Option ℤ)} (h : t.Unmet r.id)
    (hokr : (Entry.doc r preds).Ok) (hok : ∀ x ∈ post, x.Ok) (hpost : r.id ∉ post.map Entry.id)
    (htop : r.top = (r.visible && !post.any wasShown)) :
    (((post.foldl process (t.process (.doc r preds))).reset.adjust r).top && !deleted preds) =
      ((Entry.doc r preds).shown && !post.any shown) := by
  have hshown : (Entry.doc r preds).shown = (r.visible && !deleted preds) := rfl
  cases hdel : deleted preds with
  | true => simp [hshown, hdel]
  | false =>
    rw [hshown, hdel, Bool.not_false, Bool.and_true, Bool.and_true, Bool.eq_iff_iff, adjust_top]
    cases hv : r.visible with
    | true =>
      rw [hv, Bool.true_and] at htop
      rw [Bool.true_and, Bool.not_eq_true']
      exact doc_named h hokr (by rw [hshown, hv, hdel]; rfl) hok hpost htop
    | false =>
      -- the row was not visible, so it is not named and does not become `Top`
      rw [hv, Bool.false_and] at htop
      have hstep : t.process (.doc r preds) = t := by
        have hhidden : (Entry.doc r preds).shown = false := by rw [hshown, hv]; rfl
        have hwas : (Entry.doc r preds).wasShown = false := hv
        rw [process_hidden hokr hhidden, hwas]
        rfl
      have hrun := extends_run (t := t) hok
      rw [hstep, htop, mem_reset_exposed, hrun.exposed, h.exposed]
      refine iff_of_false ?_ (by simp)
      rintro ((hid | hid) | ⟨ht, -⟩)
      · cases hid
      · rcases hrun.top r.id (by rw [hid]; exact List.mem_cons_self) with hid | hid
        · exact h.top hid
        · exact hpost hid
      · cases ht

/-- The row of an operation behind the batch: named if it is the last that is visible. -/
theorem row_named (hnodup : (es.map Entry.id).Nodup) (hok : ∀ e ∈ es, e.Ok)
    (htop : ∀ pre r preds post, es = pre ++ .doc r preds :: post →
      r.top = (r.visible && !post.any wasShown))
    (hes : es = pre ++ e :: post)
    (hrow : (es.foldl process start).reset.row e = some new) :
    new.visible = e.shown ∧ new.top = (e.shown && !post.any shown) := by
  have hoke : e.Ok := hok e (by simp [hes])
  have hokpre : ∀ x ∈ pre, x.Ok := fun x hx => hok x (by simp [hes, hx])
  have hokpost : ∀ x ∈ post, x.Ok := fun x hx => hok x (by simp [hes, hx])
  rw [hes, List.map_append, List.map_cons, List.nodup_append, List.nodup_cons] at hnodup
  have hnotpre : e.id ∉ pre.map Entry.id := fun h =>
    hnodup.2.2 e.id h e.id List.mem_cons_self rfl
  have hnotpost : e.id ∉ post.map Entry.id := hnodup.2.1.1
  have hunmet := unmet_run hokpre hnotpre
  rw [hes, List.foldl_append, List.foldl_cons] at hrow
  generalize pre.foldl process start = t at hunmet hrow
  cases e with
  | change c =>
    obtain ⟨-, rfl⟩ := row_change.mp hrow
    refine ⟨rfl, ?_⟩
    show (!List.contains _ c.id && c.visible) = (c.visible && _)
    cases hv : c.visible with
    | false => simp
    | true =>
      have hiff := conflicted_iff hunmet hv hoke hokpost hnotpost
      rw [reset_conflicted, Bool.and_true, Bool.true_and, Bool.not_inj_iff, Bool.eq_iff_iff,
        List.contains_iff_mem]
      exact hiff
  | doc r preds =>
    obtain ⟨hidx, hinc⟩ := hoke
    have hrtop := htop pre r preds post hes
    cases hrow
    obtain ⟨hvisible, htop'⟩ := foldl_addSucc_visible (r := (List.foldl process
      (t.process (.doc r preds)) post).reset.adjust r)
      (by rw [adjust_action]; exact hinc)
    rw [hvisible, htop', adjust_visible]
    exact ⟨rfl, doc_row hunmet ⟨hidx, hinc⟩ hokpost hnotpost hrtop⟩

end Tops

namespace Register

open Entry

/-- What has no row is not visible. -/
theorem row_none {t : Tops A} {e : Entry A} (h : t.row e = none) : e.shown = false := by
  cases e with
  | doc r preds => cases h
  | change c =>
    show c.visible = false
    unfold ChangeOp.visible
    simp [Tops.row_delete.mp h]

omit [LinearOrder A] in
theorem changes_walked (es : List (Entry A)) :
    (Register.walked es).changes = es.filterMap change? := by
  show es.filterMap _ = es.filterMap change?
  congr 1

/-- The rows of the document in a register. -/
def docs : Register A → List (Row A)
  | .walked es => es.filterMap doc?
  | .fresh _ => []

/-- What is asked of a register: ids in use once, right rows, increments of counters. -/
structure Good (g : Register A) : Prop where
  nodup : (g.docs.map Row.id ++ g.changes.map ChangeOp.id).Nodup
  named : ∀ a r b, g.docs = a ++ r :: b → Named r b
  changes : ∀ c ∈ g.changes, (Entry.change c).Ok ∧ c.op.action.isMark = false
  docs : ∀ es, g = .walked es → ∀ e ∈ es, e.Ok

/-- Rows that are named by what is visible behind them. -/
theorem named_rows {es : List (Entry A)} {t : Tops A}
    (h : ∀ pre e post new, es = pre ++ e :: post → t.row e = some new →
      new.visible = e.shown ∧ new.top = (e.shown && !post.any shown)) :
    ∀ a r b, es.filterMap t.row = a ++ r :: b → Named r b := by
  intro a r b hab
  obtain ⟨pre, es', hes, ha, hes'⟩ := List.filterMap_eq_append_iff.mp hab
  obtain ⟨gap, e, post, rfl, hgap, he, hb⟩ := List.filterMap_eq_cons_iff.mp hes'
  have hsplit : es = (pre ++ gap) ++ e :: post := by
    rw [hes, List.append_assoc]
  obtain ⟨hv, ht⟩ := h _ e post r hsplit he
  have hrows : ∀ l m, es = l ++ m → m.any shown = (m.filterMap t.row).any Row.visible := by
    intro l m hlm
    induction m generalizing l with
    | nil => rfl
    | cons x m ih =>
      have ih := ih (l ++ [x]) (by rw [hlm, List.append_assoc]; rfl)
      rw [List.any_cons, ih, List.filterMap_cons]
      cases hx : t.row x with
      | none => rw [row_none hx, Bool.false_or]
      | some new => rw [List.any_cons, (h l x m new hlm hx).1]
  unfold Named
  rw [hv, ht, hrows (pre ++ gap ++ [e]) post (by rw [hsplit]; simp), hb]

theorem named_walked {es : List (Entry A)} (h : (Register.walked es).Good) :
    ∀ a r b, (Register.walked es).rows = a ++ r :: b → Named r b := by
  have hnodup : (es.map Entry.id).Nodup := by
    apply (ids_perm es).nodup_iff.mpr
    rw [← changes_walked]
    exact h.nodup
  apply named_rows
  intro pre e post new hes
  apply Tops.row_named hnodup (h.docs es rfl) ?_ hes
  intro pre r preds post hes
  rw [any_wasShown]
  apply h.named (pre.filterMap doc?) r (post.filterMap doc?)
  show es.filterMap doc? = _
  rw [hes, List.filterMap_append]
  rfl

/-- On a new element the values are named as in a walk. -/
theorem named_fresh {ops : List (ChangeOp A)} (h : (Register.fresh ops).Good) :
    ∀ a r b, (Register.fresh ops).rows = a ++ r :: b → Named r b := by
  have hvis : ∀ c ∈ ops, (c.op.action.isSetOrMake && !c.hasSucc) = c.visible := by
    intro c hc
    have hm := (h.changes c hc).2
    unfold ChangeOp.visible
    cases ha : c.op.action with
    | markBegin | markEnd =>
      rw [ha] at hm
      cases hm
    | make | delete | increment | put => simp [OpType.isSetOrMake, OpType.isIncrement]
  have hnodup : (ops.map ChangeOp.id).Nodup := h.nodup
  have hrows : (Register.fresh ops).rows = (ops.map Entry.change).filterMap
      (Tops.row ⟨.nothing, ((ops.filter ChangeOp.visible).map ChangeOp.id).dropLast, [], []⟩) := by
    unfold rows
    dsimp only
    rw [List.filter_congr hvis, List.filterMap_map]
    rfl
  rw [hrows]
  apply named_rows
  intro pre' e post' new hes hnew
  obtain ⟨pre, rest, rfl, rfl, hrest⟩ := List.map_eq_append_iff.mp hes
  obtain ⟨c, post, rfl, rfl, rfl⟩ := List.map_eq_cons_iff.mp hrest
  obtain ⟨-, rfl⟩ := Tops.row_change.mp hnew
  refine ⟨rfl, ?_⟩
  show (!List.contains _ c.id && c.visible) = (c.visible && _)
  cases hv : c.visible with
  | false => simp
  | true =>
    have hany : (post.map Entry.change).any shown = (post.filter ChangeOp.visible).any fun _ => true := by
      rw [List.any_map, List.any_filter]
      congr 1
      funext x
      exact (Bool.and_true _).symm
    have hnot : c.id ∉ (pre.filter ChangeOp.visible).map ChangeOp.id := by
      intro hmem
      obtain ⟨x, hx, hid⟩ := List.mem_map.mp hmem
      rw [List.map_append, List.map_cons, List.nodup_append] at hnodup
      exact hnodup.2.2 x.id (List.mem_map_of_mem (List.mem_of_mem_filter hx)) c.id
        List.mem_cons_self hid
    rw [hany, Bool.and_true, Bool.true_and, Bool.not_inj_iff, Bool.eq_iff_iff, List.contains_iff_mem,
      List.filter_append, List.filter_cons_of_pos hv, List.map_append, List.map_cons,
      List.dropLast_append_of_ne_nil (List.cons_ne_nil _ _)]
    cases hpost : post.filter ChangeOp.visible with
    | nil => simpa using hnot
    | cons x xs => simp

end Register

end AutomergeR
