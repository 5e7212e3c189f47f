import AutomergeR.AsList
import AutomergeR.Counters
import AutomergeR.ListCalls
import AutomergeR.SameRows

/-! # The same rows read the same

What a document reads as depends on the rows, and of these neither on the order in which
successors came nor on the column `top`, where this names the last visible row of every
element. So two documents with the same log read the same (`same_reads`).
-/

namespace AutomergeR

variable {A : Type}

theorem map_of_forall₂ {B C D : Type} {R : B → C → Prop} {f : B → D} {g : C → D} {l : List B}
    {l' : List C} (h : List.Forall₂ R l l') (hR : ∀ x y, R x y → f x = g y) : l.map f = l'.map g := by
  induction h with
  | nil => rfl
  | cons hxy _ ih => rw [List.map_cons, List.map_cons, hR _ _ hxy, ih]

theorem filter_of_forall₂ {B C : Type} {R : B → C → Prop} {p : B → Bool} {q : C → Bool} {l : List B}
    {l' : List C} (h : List.Forall₂ R l l') (hR : ∀ x y, R x y → p x = q y) :
    List.Forall₂ R (l.filter p) (l'.filter q) :=
  List.rel_filter (fun {x y} hxy => by
    show p x = true ↔ q y = true
    rw [hR x y hxy]) h

namespace Row.Same

variable {r r' : Row A} (h : r.Same r')

include h

theorem symm : r'.Same r :=
  ⟨h.id.symm, h.key.symm, h.insert.symm, h.action.symm, h.succ.symm, h.visible.symm⟩

theorem fixedValue : r.fixedValue = r'.fixedValue := by
  unfold Row.fixedValue
  rw [h.action]
  split
  · have hcomm : RightCommutative fun (n : ℤ) (s : OpId A × Option ℤ) => addI64 n (s.2.getD 0) :=
      ⟨fun n a b => addI64_right_comm n _ _⟩
    rw [h.succ.foldl_eq]
  · rfl

theorem value : r.value = r'.value := by
  unfold Row.value
  rw [h.action, h.id, h.fixedValue]

theorem isInc : r.isInc = r'.isInc := by
  unfold Row.isInc
  rw [h.action]

theorem elemidOrKey : r.elemidOrKey = r'.elemidOrKey := by
  unfold Row.elemidOrKey
  rw [h.insert, h.id, h.key]

end Row.Same

namespace OpSet

variable {rows rows' : List (Row A)}

/-- The last value that is found. -/
theorem getLast?_value (h : List.Forall₂ Row.Same rows rows') :
    rows.getLast?.map Row.value = rows'.getLast?.map Row.value := by
  rw [← List.getLast?_map, ← List.getLast?_map, map_of_forall₂ h fun _ _ hxy => hxy.value]

theorem topOps_same [LinearOrder A] (h : List.Forall₂ Row.Same rows rows') :
    List.Forall₂ Row.Same (topOps rows) (topOps rows') := by
  induction h with
  | nil => exact .nil
  | @cons x y l l' hxy hrest ih =>
    cases hrest with
    | nil => exact .cons hxy .nil
    | @cons x' y' l l' hxy' hrest =>
      unfold topOps
      rw [hxy.elemidOrKey, hxy'.elemidOrKey]
      split
      · exact ih
      · exact .cons hxy ih

theorem countKeys_same [LinearOrder A] (h : List.Forall₂ Row.Same rows rows') :
    ∀ last, countKeys rows last = countKeys rows' last := by
  induction h with
  | nil => exact fun _ => rfl
  | cons hxy _ ih =>
    intro last
    unfold countKeys
    rw [hxy.visible, hxy.key]
    split
    · rw [ih]
    · exact ih last

theorem countElems_same (h : List.Forall₂ Row.Same rows rows') :
    ∀ seen, countElems rows seen = countElems rows' seen := by
  induction h with
  | nil => exact fun _ => rfl
  | cons hxy _ ih =>
    intro seen
    unfold countElems
    rw [hxy.visible, hxy.insert]
    dsimp only
    split
    · rw [ih]
    · exact ih _

/-- The column `top` follows from the others. -/
theorem items_same (h : List.Forall₂ Row.Same rows rows') (hl : IndexedRows rows)
    (hl' : IndexedRows rows') : items rows = items rows' := by
  -- a row is named exactly if it is the last visible one of its element
  have hnext : ∀ {l l' : List (Row A)}, List.Forall₂ Row.Same l l' →
      (∀ x ∈ l.takeWhile fun x => !x.insert, x.visible = false) →
        ∀ x ∈ l'.takeWhile fun x => !x.insert, x.visible = false := by
    intro l l' h
    induction h with
    | nil => exact fun h => h
    | @cons x y l l' hxy _ ih =>
      intro hall
      rw [List.takeWhile_cons] at hall ⊢
      rw [← hxy.insert]
      split at hall
      · rw [if_pos ‹_›]
        rw [List.forall_mem_cons] at hall ⊢
        exact ⟨hxy.visible ▸ hall.1, ih hall.2⟩
      · rw [if_neg ‹_›]
        exact List.forall_mem_nil _
  have htops : ∀ {l l' : List (Row A)}, List.Forall₂ Row.Same l l' → TopLast l → TopLast l' →
      NamesLast l → NamesLast l' →
        List.Forall₂ (fun r r' : Row A => r.Same r' ∧ r.top = r'.top) l l' := by
    intro l l' h
    induction h with
    | nil => exact fun _ _ _ _ => .nil
    | @cons x y l l' hxy hrest ih =>
      intro ht ht' hn hn'
      refine .cons ⟨hxy, Bool.eq_iff_iff.mpr ⟨fun hx => ?_, fun hy => ?_⟩⟩
        (ih ht.2 ht'.2 hn.2 hn'.2)
      · obtain ⟨hvis, hlast⟩ := ht.1 hx
        exact hn'.1 (hxy.visible ▸ hvis) (hnext hrest hlast)
      · obtain ⟨hvis, hlast⟩ := ht'.1 hy
        exact hn.1 (hxy.visible ▸ hvis) (hnext (hrest.flip.imp fun _ _ hr => hr.symm) hlast)
  have htop := htops h hl.topLast hl'.topLast hl.named hl'.named
  exact map_of_forall₂ (filter_of_forall₂ htop fun _ _ hxy => hxy.2) fun _ _ hxy => hxy.1.value

/-! ## Texts -/

/-- Rows that agree also in the widths of their texts. -/
def SameText (r r' : Row A) : Prop := r.Same r' ∧ r.text.getD 0 = r'.text.getD 0

theorem textPos_same (h : List.Forall₂ SameText rows rows') :
    ∀ index, textPos index rows = textPos index rows' := by
  induction h with
  | nil => exact fun _ => rfl
  | cons hxy _ ih =>
    intro index
    unfold textPos
    rw [hxy.2]
    dsimp only
    rw [ih]

theorem textOps_same (h : List.Forall₂ SameText rows rows') : ∀ (pos : ℕ) {ops ops' : List (Row A)},
    List.Forall₂ Row.Same ops ops' →
      List.Forall₂ Row.Same (textOps rows pos ops).1 (textOps rows' pos ops').1 := by
  induction h with
  | nil => exact fun _ _ _ hops => hops
  | cons hxy _ ih =>
    intro pos ops ops' hops
    have hempty : ops.isEmpty = ops'.isEmpty := by
      cases hops <;> rfl
    unfold textOps
    rw [hxy.1.insert, hempty, hxy.1.succ.isEmpty_eq, hxy.1.action]
    split
    · exact hops
    · split
      · exact ih (pos + 1) (List.rel_append hops (.cons hxy.1 .nil))
      · exact ih (pos + 1) hops

theorem seekText_same (h : List.Forall₂ SameText rows rows') (index : ℕ) :
    List.Forall₂ Row.Same (seekTextOpsByIndex rows index).ops (seekTextOpsByIndex rows' index).ops := by
  unfold seekTextOpsByIndex
  rw [textPos_same h]
  split
  · rename_i pos acc _
    exact textOps_same (List.forall₂_drop pos h) pos .nil
  · exact .nil

end OpSet

/-! ## Reads -/

variable [LinearOrder A] {s s' : OpSet A}

/-- Every read yields the same. -/
structure SameReads (s s' : OpSet A) : Prop where
  objectType : ∀ obj, s.objectType obj = s'.objectType obj
  keys : ∀ obj, s.keys obj = s'.keys obj
  mapGet : ∀ obj prop, s.mapGet obj prop = s'.mapGet obj prop
  length : ∀ obj, s.length obj = s'.length obj
  listGet : ∀ obj index, s.listGet obj index = s'.listGet obj index
  text : ∀ obj, s.text obj = s'.text obj

namespace OpSet

theorem keys_same {obj : ObjId A} (h : List.Forall₂ Row.Same (s.rows obj) (s'.rows obj)) :
    s.keys obj = s'.keys obj := by
  unfold keys
  have hops := topOps_same (filter_of_forall₂ (p := fun r => !r.isInc && r.unhidden)
    (q := fun r => !r.isInc && r.unhidden) h fun r r' hr => by
      rw [hr.isInc, unhidden_perm hr.action hr.succ])
  generalize topOps ((s.rows obj).filter _) = l at hops ⊢
  generalize topOps ((s'.rows obj).filter _) = l' at hops ⊢
  induction hops with
  | nil => rfl
  | cons hxy _ ih => rw [List.filterMap_cons, List.filterMap_cons, hxy.key, ih]

omit [LinearOrder A] in
theorem text_same {obj : ObjId A} (h : List.Forall₂ Row.Same (s.rows obj) (s'.rows obj)) :
    s.text obj = s'.text obj := by
  unfold text
  rw [map_of_forall₂ (filter_of_forall₂ h fun _ _ hr => hr.visible) fun _ _ hr => by rw [hr.action]]

theorem mapGet_same {obj : ObjId A} (ht : s.objectType obj = s'.objectType obj)
    (h : List.Forall₂ Row.Same (s.rows obj) (s'.rows obj)) (prop : String) :
    s.mapGet obj prop = s'.mapGet obj prop := by
  unfold mapGet visibleAtKey
  rw [ht, getLast?_value (filter_of_forall₂ h fun r r' hr => by rw [hr.visible, hr.key])]

end OpSet

section

variable {S : Log A} (hS : S.WF) (hplain : S.Plain) (h : Represents s S) (h' : Represents s' S)
  (hd : Detailed s S) (hd' : Detailed s' S)

include hS h in
/-- What a log without increments in texts has there. -/
theorem text_isInc (hplain : S.Plain) {obj : ObjId A} (ht : S.MadeAs obj .text) {r : Row A}
    (hr : r ∈ s.rows obj) : r.isInc = false := by
  obtain ⟨p, hp, rfl, -, hrec⟩ := h.row obj r hr
  refine Bool.eq_false_iff.mpr fun hinc => ?_
  obtain ⟨⟨prop, hkey⟩, -⟩ := hplain p hp (hrec.action ▸ hinc)
  obtain ⟨e, hkey'⟩ := Op.SuitsSeq.key (hS.suits hp ht)
  rw [hkey] at hkey'
  cases hkey'

include hS hplain h h' hd hd'

theorem same_text {obj : ObjId A} (ht : S.MadeAs obj .text) :
    List.Forall₂ OpSet.SameText (s.rows obj) (s'.rows obj) := by
  refine forall₂_of_map_eq (f := Row.id) (map_of_forall₂ (same_rows hS h h' hd hd' obj)
    fun _ _ hr => hr.id) fun r hr r' hr' hid => ?_
  have hsame := same_row hS h h' hd hd' hr hr' hid
  refine ⟨hsame, ?_⟩
  rw [hd.width obj r hr (text_isInc hS h hplain ht hr),
    hd'.width obj r' hr' (text_isInc hS h' hplain ht hr'), hsame.visible, hsame.action]

/-- **Documents with the same log read the same.** -/
theorem same_reads (hl : ∀ obj, S.MadeAs obj .list → IndexedRows (s.rows obj))
    (hl' : ∀ obj, S.MadeAs obj .list → IndexedRows (s'.rows obj)) : SameReads s s' := by
  have hrows := same_rows hS h h' hd hd'
  have htype : ∀ obj, s.objectType obj = s'.objectType obj := fun obj =>
    Option.ext fun t => (h.objectType hS).trans (h'.objectType hS).symm
  refine ⟨htype, fun obj => OpSet.keys_same (hrows obj), fun obj prop =>
    OpSet.mapGet_same (htype obj) (hrows obj) prop, fun obj => ?_, fun obj index => ?_,
    fun obj => OpSet.text_same (hrows obj)⟩
  · unfold OpSet.length
    rw [← htype obj]
    split
    · rename_i ht
      have htext := same_text hS hplain h h' hd hd' ((h.objectType hS).mp ht)
      rw [map_of_forall₂ (filter_of_forall₂ htext fun _ _ hr => hr.1.visible) fun _ _ hr => hr.2]
    · exact OpSet.countElems_same (hrows obj) false
    · exact OpSet.countKeys_same (hrows obj) none
    · exact OpSet.countKeys_same (hrows obj) none
    · rfl
  · by_cases ht : s.objectType obj = some .list
    · have hmade := (h.objectType hS).mp ht
      rw [OpSet.listGet_items ht (hl obj hmade), OpSet.listGet_items (htype obj ▸ ht) (hl' obj hmade),
        OpSet.items_same (hrows obj) (hl obj hmade) (hl' obj hmade)]
    · unfold OpSet.listGet
      rw [← htype obj]
      split
      · exact absurd ‹_› ht
      · rename_i ht
        have htext := same_text hS hplain h h' hd hd' ((h.objectType hS).mp ht)
        exact OpSet.getLast?_value (OpSet.seekText_same htext index)
      · rfl

end

namespace SameReads

variable (h : SameReads s s')

include h

theorem itemToR : s.itemToR = s'.itemToR := by
  funext v
  cases v with
  | object t id =>
    show Except.ok (Got.object (s.objectType (some id)) id) = Except.ok (Got.object _ id)
    rw [h.objectType]
  | scalar v => rfl

theorem getMap (obj : ObjId A) (prop : String) : s.getMap obj prop = s'.getMap obj prop := by
  unfold OpSet.getMap
  rw [h.objectType, h.mapGet]

theorem getList (obj : ObjId A) (pos : ℕ) : s.getList obj pos = s'.getList obj pos := by
  unfold OpSet.getList
  rw [h.length]
  split
  · rfl
  · rw [h.objectType, h.listGet]

theorem amValues (obj : ObjId A) : s.amValues obj = s'.amValues obj := by
  have hentry : s.entryToR = s'.entryToR := by
    funext entry
    unfold OpSet.entryToR
    rw [h.itemToR]
  unfold OpSet.amValues
  simp only [h.objectType, h.length, h.keys, hentry, h.getList, h.getMap]

/-- `as.list` of an object. -/
theorem asList (depth : ℕ) : s.asList depth = s'.asList depth := by
  induction depth with
  | zero =>
    funext got
    cases got <;> rfl
  | succ depth ih =>
    funext got
    cases got with
    | value v => rfl
    | object t id =>
      unfold OpSet.asList OpSet.asListMap OpSet.asListList OpSet.amTextGet OpSet.amKeys
      rw [ih, h.amValues, h.keys, h.text]

/-- `from_automerge` yields the same. -/
theorem fromAutomerge (depth : ℕ) : s.fromAutomerge depth = s'.fromAutomerge depth := by
  unfold OpSet.fromAutomerge OpSet.asListMap OpSet.amKeys
  rw [h.asList, h.amValues, h.keys]

end SameReads

end AutomergeR
