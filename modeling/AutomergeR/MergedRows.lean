import AutomergeR.OpLog
import AutomergeR.WovenRows

/-! # The rows behind a walk

A walk passes each row of the object, with the successors that the batch has for it, and each
operation of the batch. What comes out are the rows with these successors, and the rows of
the operations (`Passes`), in a map in the order of the keys (`mapOrder_applyObj`).
-/

namespace AutomergeR

variable {A : Type}

namespace Register

/-- What is passed. -/
def entries : Register A → List (Entry A)
  | .walked es => es
  | .fresh ops => ops.map .change

theorem docs_eq : ∀ g : Register A, g.docs = g.entries.filterMap Entry.doc?
  | .walked _ => rfl
  | .fresh ops => (docs_change ops).symm

theorem changes_eq : ∀ g : Register A, g.changes = g.entries.filterMap Entry.change?
  | .walked es => changes_walked es
  | .fresh ops => by
    have hchange : (Entry.change? ∘ Entry.change : ChangeOp A → Option (ChangeOp A)) = some := rfl
    show ops = (ops.map Entry.change).filterMap Entry.change?
    rw [List.filterMap_map, hchange, List.filterMap_some]

variable [LinearOrder A]

/-- The adjustments. -/
def tops : Register A → Tops A
  | .walked es => (es.foldl Tops.process .start).reset
  | .fresh ops =>
    let vis := (ops.filter fun c => c.op.action.isSetOrMake && !c.hasSucc).map ChangeOp.id
    ⟨.nothing, vis.dropLast, [], []⟩

theorem rows_eq : ∀ g : Register A, g.rows = g.entries.filterMap g.tops.row
  | .walked _ => rfl
  | .fresh ops => by
    show _ = (ops.map Entry.change).filterMap _
    rw [List.filterMap_map]
    rfl

end Register

variable [LinearOrder A]

/-- The rows with new successors, of which `N` says what they are, and the rows of the
operations. -/
structure Passes (N : Row A → List (OpId A × Option ℤ) → Prop) (ops : List (ChangeOp A))
    (rows rows' : List (Row A)) : Prop where
  row : ∀ new ∈ rows',
    (∃ r ∈ rows, ∃ (t : Tops A) (preds : List (OpId A × Option ℤ)), N r preds ∧
      new = preds.foldl Row.addSucc (t.adjust r)) ∨
      ∃ c ∈ ops, c.op.action ≠ .delete ∧ ∃ conflicted, new = c.toRow conflicted
  doc : ∀ r ∈ rows, ∃ (t : Tops A) (preds : List (OpId A × Option ℤ)),
    preds.foldl Row.addSucc (t.adjust r) ∈ rows'
  change : ∀ c ∈ ops, c.op.action ≠ .delete → ∃ conflicted, c.toRow conflicted ∈ rows'

section

variable {ops : List (ChangeOp A)} {rows rest rows' : List (Row A)} {gs : List (Register A)}

omit [LinearOrder A] in
theorem mem_docs {r : Row A} : r ∈ gs.flatMap Register.docs ↔
    ∃ g ∈ gs, ∃ preds, Entry.doc r preds ∈ g.entries := by
  rw [List.mem_flatMap]
  refine exists_congr fun g => and_congr_right fun _ => ?_
  rw [Register.docs_eq, List.mem_filterMap]
  constructor
  · rintro ⟨e, he, hdoc⟩
    cases e with
    | doc x preds =>
      cases hdoc
      exact ⟨preds, he⟩
    | change c => cases hdoc
  · rintro ⟨preds, he⟩
    exact ⟨_, he, rfl⟩

omit [LinearOrder A] in
theorem mem_changes {c : ChangeOp A} : c ∈ gs.flatMap Register.changes ↔
    ∃ g ∈ gs, Entry.change c ∈ g.entries := by
  rw [List.mem_flatMap]
  refine exists_congr fun g => and_congr_right fun _ => ?_
  rw [Register.changes_eq, List.mem_filterMap]
  constructor
  · rintro ⟨e, he, hchange⟩
    cases e with
    | doc x preds => cases hchange
    | change o =>
      cases hchange
      exact he
  · exact fun he => ⟨_, he, rfl⟩

/-- The rows of the registers, and those that a walk does not get to. -/
theorem passes_registers {N : Row A → List (OpId A × Option ℤ) → Prop}
    (hnamed : ∀ g ∈ gs, ∀ r preds, Entry.doc r preds ∈ g.entries → N r preds)
    (hdocs : gs.flatMap Register.docs ++ rest = rows)
    (hchanges : (gs.flatMap Register.changes).Perm ops) (hrest : ∀ r ∈ rest, N r []) :
    Passes N ops rows (gs.flatMap Register.rows ++ rest) where
  row new hnew := by
    rcases List.mem_append.mp hnew with hnew | hnew
    · obtain ⟨g, hg, hnew⟩ := List.mem_flatMap.mp hnew
      rw [Register.rows_eq] at hnew
      obtain ⟨e, he, hrow⟩ := List.mem_filterMap.mp hnew
      cases e with
      | doc r preds =>
        refine Or.inl ⟨r, ?_, g.tops, preds, hnamed g hg r preds he, (Option.some.inj hrow).symm⟩
        rw [← hdocs]
        exact List.mem_append_left _ (mem_docs.mpr ⟨g, hg, preds, he⟩)
      | change c =>
        obtain ⟨hdel, rfl⟩ := Tops.row_change.mp hrow
        exact Or.inr ⟨c, hchanges.subset (mem_changes.mpr ⟨g, hg, he⟩), hdel, _, rfl⟩
    · exact Or.inl ⟨new, hdocs ▸ List.mem_append_right _ hnew, .start, [], hrest new hnew, rfl⟩
  doc r hr := by
    rw [← hdocs] at hr
    rcases List.mem_append.mp hr with hr | hr
    · obtain ⟨g, hg, preds, he⟩ := mem_docs.mp hr
      refine ⟨g.tops, preds, List.mem_append_left _ (List.mem_flatMap.mpr ⟨g, hg, ?_⟩)⟩
      rw [Register.rows_eq]
      exact List.mem_filterMap.mpr ⟨_, he, rfl⟩
    · exact ⟨.start, [], List.mem_append_right _ hr⟩
  change c hc hdel := by
    obtain ⟨g, hg, he⟩ := mem_changes.mp (hchanges.symm.subset hc)
    refine ⟨g.tops.conflicted.contains c.id, List.mem_append_left _ (List.mem_flatMap.mpr ⟨g, hg, ?_⟩)⟩
    rw [Register.rows_eq]
    exact List.mem_filterMap.mpr ⟨_, he, Tops.row_change.mpr ⟨hdel, rfl⟩⟩

/-! ## Sequences -/

/-- A row is passed with what the batch has for its successors. -/
theorem named_listRegisters (ops : List (ChangeOp A)) (rows : List (Row A)) :
    ∀ g ∈ listRegisters ops rows, ∀ r preds, Entry.doc r preds ∈ g.entries →
      preds = predsOf ops r.id := by
  intro g hg r preds he
  unfold listRegisters at hg
  dsimp only at hg
  rw [walkList_eq] at hg
  rcases List.mem_cons.mp hg with rfl | hg
  · obtain ⟨x, -, heq⟩ := List.mem_map.mp he
    cases heq
    rfl
  · obtain ⟨step, -, rfl⟩ := List.mem_map.mp hg
    cases step with
    | inl c =>
      obtain ⟨o, -, heq⟩ := List.mem_map.mp he
      cases heq
    | inr el =>
      rcases List.mem_cons.mp he with heq | he
      · cases heq
        rfl
      · rcases mem_mergeElement he with ⟨c, -, heq⟩ | ⟨x, -, heq⟩
        · cases heq
        · cases heq
          rfl

theorem passes_sequence (hb : SeqBatch ops (elementIds rows)) {t : ObjType} (ht : t.isSequence = true)
    (heq : applyObj (some t) ops rows = some rows') :
    Passes (fun r preds => preds = predsOf ops r.id) ops rows rows' := by
  rw [applyObj_sequence hb ht] at heq
  cases heq
  have hpasses := passes_registers (named_listRegisters ops rows) (List.append_nil _)
    (changes_listRegisters hb) (List.forall_mem_nil _)
  rwa [docs_listRegisters, List.append_nil] at hpasses

/-! ## Maps -/

/-- Every row of a map is passed, up to those behind the last key. -/
theorem named_mergeMap (ops : List (ChangeOp A)) : ∀ (cs : List (ChangeOp A)) (rows : List (Row A))
    (key : Option (Key A)), ∀ r preds, Entry.doc r preds ∈ (mergeMap ops rows key cs).1 →
      preds = predsOf ops r.id
  | [], rows, key, r, preds, h => by
    obtain ⟨x, -, heq⟩ := List.mem_map.mp h
    cases heq
    rfl
  | c :: cs, rows, key, r, preds, h => by
    rw [mergeMap_cons] at h
    rcases List.mem_append.mp h with h | h
    · obtain ⟨x, -, heq⟩ := List.mem_map.mp h
      cases heq
      rfl
    · rcases List.mem_cons.mp h with heq | h
      · cases heq
      · exact named_mergeMap ops cs _ _ r preds h

theorem passes_map {N : Row A → List (OpId A × Option ℤ) → Prop}
    (hnamed : ∀ r ∈ rows, N r (predsOf ops r.id))
    (hrest : ∀ r ∈ (mergeMap ops rows none ops).2, N r [])
    (heq : applyObj (some .map) ops rows = some rows') : Passes N ops rows rows' := by
  obtain ⟨hdocs, hchanges⟩ := mergeMap_all ops ops rows none
  have hpreds := named_mergeMap ops ops rows none
  unfold applyObj at heq
  dsimp only at heq
  generalize mergeMap ops rows none ops = reply at hdocs hchanges hpreds heq hrest
  obtain ⟨es, rest⟩ := reply
  dsimp only at hdocs hchanges hpreds heq hrest
  cases heq
  refine passes_registers (fun g hg r preds he => ?_) ?_ ?_ hrest
  · obtain ⟨l, hl, rfl⟩ := List.mem_map.mp hg
    have hes : Entry.doc r preds ∈ es := by
      rw [← List.flatten_splitBy (fun a b : Entry A => a.key = b.key) es]
      exact List.mem_flatten.mpr ⟨l, hl, he⟩
    rw [hpreds r preds hes]
    refine hnamed r ?_
    rw [← hdocs]
    exact List.mem_append_left _ (List.mem_filterMap.mpr ⟨_, hes, rfl⟩)
  · rw [flatMap_mapRegisters (fun es => rfl)]
    exact hdocs
  · rw [flatMap_mapRegisters Register.changes_walked, hchanges]

theorem MapOrder.le_head {x : Row A} (h : MapOrder (x :: rows)) : ∀ r ∈ x :: rows, x.mapKey ≤ r.mapKey := by
  intro r hr
  rcases List.mem_cons.mp hr with rfl | hr
  · exact le_rfl
  · rcases (List.pairwise_cons.mp h).1 r hr with hlt | ⟨heq, -⟩
    · exact hlt.le
    · exact heq.le

/-- The rows that a walk does not get to have greater keys than the batch. -/
theorem rest_mergeMap (ops : List (ChangeOp A)) : ∀ (cs : List (ChangeOp A)) {rows : List (Row A)}
    (key : Option (Key A)), (∀ r ∈ rows, r.key = .map r.mapKey) → MapOrder rows →
    (∀ c ∈ cs, c.op.key = .map c.mapKey) → (cs.Pairwise fun a b => a.mapKey ≤ b.mapKey) →
    (∀ k, key = some (.map k) → ∀ r ∈ rows, k ≤ r.mapKey) → ∀ r ∈ (mergeMap ops rows key cs).2,
      (∀ c ∈ cs, c.mapKey < r.mapKey) ∧ ∀ k, key = some (.map k) → cs = [] → k < r.mapKey
  | [], rows, key, hkeys, hrows, _, _, hle, r, hr => by
    refine ⟨List.forall_mem_nil _, fun k hk _ => ?_⟩
    subst hk
    have hr : r ∈ rows.dropWhile fun r => some r.key = some (Key.map k) := hr
    have hhead := List.head?_dropWhile_not (fun r : Row A => decide (some r.key = some (Key.map k))) rows
    have hsub := List.dropWhile_sublist (l := rows) fun r => decide (some r.key = some (Key.map k))
    generalize rows.dropWhile (fun r => decide (some r.key = some (Key.map k))) = rest at hr hhead hsub
    cases rest with
    | nil => cases hr
    | cons x rest =>
      have hx := hsub.subset List.mem_cons_self
      have hne : x.key ≠ .map k := by simpa using hhead
      refine lt_of_lt_of_le (lt_of_le_of_ne (hle k rfl x hx) fun heq => hne ?_)
        (MapOrder.le_head (hrows.sublist hsub) r hr)
      rw [hkeys x hx, heq]
  | c :: cs, rows, key, hkeys, hrows, hcs, hsorted, _, r, hr => by
    have hc := hcs c List.mem_cons_self
    have hsub := List.dropWhile_sublist (l := rows) fun r => !r.behind c
    have hbehind : ∀ x ∈ rows.dropWhile fun r => !r.behind c, c.mapKey ≤ x.mapKey := by
      have hhead := List.head?_dropWhile_not (fun r : Row A => !r.behind c) rows
      generalize rows.dropWhile (fun r => !r.behind c) = rest at hhead hsub
      cases rest with
      | nil => exact List.forall_mem_nil _
      | cons x rest =>
        intro y hy
        have hx := (Row.behind_iff (hkeys x (hsub.subset List.mem_cons_self)) hc).mp (by simpa using hhead)
        have hle : c.mapKey ≤ x.mapKey := by
          rcases hx with hlt | ⟨heq, -⟩
          · exact hlt.le
          · exact heq.ge
        exact hle.trans (MapOrder.le_head (hrows.sublist hsub) y hy)
    rw [mergeMap_cons] at hr
    obtain ⟨hfirst, hsorted⟩ := List.pairwise_cons.mp hsorted
    obtain ⟨hlt, hlast⟩ := rest_mergeMap ops cs (some c.op.key) (fun x hx => hkeys x (hsub.subset hx))
      (hrows.sublist hsub) (fun o ho => hcs o (List.mem_cons_of_mem c ho)) hsorted (fun k hk => by
        rw [hc] at hk
        cases hk
        exact hbehind) r hr
    refine ⟨fun o ho => ?_, fun k _ hn => by cases hn⟩
    rcases List.mem_cons.mp ho with rfl | ho
    · cases cs with
      | nil => exact hlast _ (by rw [hc]) rfl
      | cons o cs => exact (hfirst o List.mem_cons_self).trans_lt (hlt o List.mem_cons_self)
    · exact hlt o ho

/-- **A merge keeps a map in order.** -/
theorem mapOrder_applyObj (h : MapOrder rows) (hkeys : ∀ r ∈ rows, r.key = .map r.mapKey)
    (hops : ∀ c ∈ ops, c.op.key = .map c.mapKey) (hids : ∀ c ∈ ops, ∀ r ∈ rows, c.id ≠ r.id)
    (hsorted : ops.Pairwise fun a b =>
      (toLex (a.mapKey, a.id) : String ×ₗ OpId A) < toLex (b.mapKey, b.id))
    (heq : applyObj (some .map) ops rows = some rows') : MapOrder rows' := by
  have hlex : ∀ {l : List (Row A)}, MapOrder l ↔ (l.map fun r =>
      (toLex (r.mapKey, r.id) : String ×ₗ OpId A)).Pairwise (· < ·) := by
    intro l
    rw [List.pairwise_map]
    unfold MapOrder
    simp only [Prod.Lex.lt_iff]
    rfl
  have horder := sorted_mergeMap (R := (· < ·)) (f := fun r => (toLex (r.mapKey, r.id) : String ×ₗ OpId A))
    (g := fun c => toLex (c.mapKey, c.id)) ops ops rows none (List.pairwise_map.mp (hlex.mp h)) hsorted
    fun r hr c hc => by
      have hiff := Row.behind_iff (hkeys r hr) (hops c hc)
      split
      · rename_i hbehind
        rcases hiff.mp hbehind with hlt | ⟨heq, hlt⟩
        · exact Prod.Lex.lt_iff.mpr (Or.inl hlt)
        · exact Prod.Lex.lt_iff.mpr (Or.inr ⟨heq.symm, hlt⟩)
      · rename_i hnot
        rw [hiff, not_or, not_and] at hnot
        rcases (not_lt.mp hnot.1).lt_or_eq with hlt | heq
        · exact Prod.Lex.lt_iff.mpr (Or.inl hlt)
        · exact Prod.Lex.lt_iff.mpr <| Or.inr ⟨heq, lt_of_le_of_ne (not_lt.mp (hnot.2 heq)) (hids c hc r hr).symm⟩
  unfold applyObj at heq
  dsimp only at heq
  generalize mergeMap ops rows none ops = reply at horder heq
  obtain ⟨es, rest⟩ := reply
  dsimp only at horder heq
  cases heq
  rw [hlex, List.map_append]
  refine horder.sublist ((sublist_mapRegisters (fun t e new hrow => ?_) es).append (List.Sublist.refl _))
  rw [mapKey_row hrow, Tops.row_id hrow]
  cases e <;> rfl

end

end AutomergeR
