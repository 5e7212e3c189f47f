import AutomergeR.BatchRows
import AutomergeR.Rga.Order

/-! # The rows of a sequence in order

The rows of a list or a text are the registers of its elements, one behind the other: the
insertion, and the operations on the element by their ids. The elements are in the order of
a replicated growable array. A row that is put in at the end of a register keeps this, if it
is an operation on that element or an insertion that names it.
-/

namespace AutomergeR

variable {A : Type}

/-- The element that an insertion with this key is put behind. -/
def Key.ref : Key A → ElemId A
  | .seq e => e
  | .map _ => none

/-- The element that an insertion makes. -/
def Row.elem (r : Row A) : Rga.Elem (OpId A) := ⟨r.id, r.key.ref⟩

/-- The rows of the elements. -/
def flat (els : List (Row A × List (Row A))) : List (Row A) := els.flatMap fun el => el.1 :: el.2

/-- The element that the last row belongs to; the head, where there is no row. -/
def behind (rows : List (Row A)) : ElemId A := rows.getLast?.bind Row.cursor

theorem elements_cons (r : Row A) (rows : List (Row A)) : elements (r :: rows) =
    if r.insert then ([], (r, (elements rows).1) :: (elements rows).2)
    else (r :: (elements rows).1, (elements rows).2) := rfl

theorem flat_cons (r : Row A) (rest : List (Row A)) (els : List (Row A × List (Row A))) :
    flat ((r, rest) :: els) = r :: (rest ++ flat els) := rfl

theorem flat_append (els els' : List (Row A × List (Row A))) :
    flat (els ++ els') = flat els ++ flat els' := List.flatMap_append

theorem flat_snoc (els : List (Row A × List (Row A))) (r : Row A) (rest : List (Row A)) :
    flat (els ++ [(r, rest)]) = flat els ++ r :: rest := by
  rw [flat_append]
  simp [flat]

variable [LinearOrder A]

/-- An insertion, and the operations on its element in the order of their ids. -/
structure RegisterRows (r : Row A) (rest : List (Row A)) : Prop where
  insert : r.insert = true
  updates : ∀ x ∈ rest, x.insert = false ∧ x.key = .seq (some r.id)
  sorted : (r :: rest).Pairwise fun x y => x.id < y.id

structure SeqRows (rows : List (Row A)) : Prop where
  before : (elements rows).1 = []
  registers : ∀ el ∈ (elements rows).2, RegisterRows el.1 el.2
  ordered : Rga.Ordered ((elements rows).2.map fun el => el.1.elem)

/-! ## Registers -/

theorem RegisterRows.cursor {r : Row A} {rest : List (Row A)} (h : RegisterRows r rest) :
    ∀ x ∈ r :: rest, x.cursor = some r.id := by
  intro x hx
  unfold Row.cursor
  rcases List.mem_cons.mp hx with rfl | hx
  · rw [h.insert]
    rfl
  · rw [(h.updates x hx).1, (h.updates x hx).2]
    rfl

omit [LinearOrder A] in
theorem elements_rest (rows : List (Row A)) : ∀ {rest : List (Row A)},
    (∀ x ∈ rest, x.insert = false) → elements (rest ++ rows) = (rest ++ (elements rows).1, (elements rows).2)
  | [], _ => rfl
  | x :: rest, h => by
    have ih := elements_rest rows fun y hy => h y (List.mem_cons_of_mem x hy)
    rw [List.cons_append, elements_cons, h x List.mem_cons_self, ih]
    rfl

omit [LinearOrder A] in
theorem elements_flat : ∀ {els : List (Row A × List (Row A))},
    (∀ el ∈ els, el.1.insert = true ∧ ∀ x ∈ el.2, x.insert = false) →
      elements (flat els) = ([], els)
  | [], _ => rfl
  | (r, rest) :: els, h => by
    obtain ⟨hins, hrest⟩ := h _ List.mem_cons_self
    have ih := elements_flat fun el hel => h el (List.mem_cons_of_mem _ hel)
    have hels := elements_rest (flat els) hrest
    have hins : r.insert = true := hins
    rw [flat_cons, elements_cons, hels, ih, hins, if_pos rfl, List.append_nil]

theorem SeqRows.of_flat {els : List (Row A × List (Row A))}
    (hregs : ∀ el ∈ els, RegisterRows el.1 el.2)
    (hord : Rga.Ordered (els.map fun el => el.1.elem)) : SeqRows (flat els) := by
  have hels : elements (flat els) = ([], els) := elements_flat fun el hel =>
    ⟨(hregs el hel).insert, fun x hx => ((hregs el hel).updates x hx).1⟩
  refine ⟨by rw [hels], ?_, ?_⟩ <;> rw [hels]
  · exact hregs
  · exact hord

theorem SeqRows.nil : SeqRows ([] : List (Row A)) :=
  ⟨rfl, fun _ hel => absurd hel List.not_mem_nil, Rga.Ordered.nil⟩

/-- The registers of the rows, cut where one of them ends. -/
theorem SeqRows.split {pre post : List (Row A)} (h : SeqRows (pre ++ post))
    (hpost : ∀ r ∈ post.head?, r.insert = true) : ∃ els els', pre = flat els ∧ post = flat els' ∧
      (∀ el ∈ els ++ els', RegisterRows el.1 el.2) ∧
        Rga.Ordered ((els ++ els').map fun el => el.1.elem) := by
  have hhead : (elements pre).1 = [] := by
    have hbefore := h.before
    rw [elements_fst] at hbefore ⊢
    cases pre with
    | nil => rfl
    | cons r pre =>
      cases hins : r.insert with
      | true => simp [hins]
      | false => simp [hins] at hbefore
  have hhead' : (elements post).1 = [] := by
    rw [elements_fst]
    cases post with
    | nil => rfl
    | cons r post => simp [hpost r rfl]
  have hrows : flat (elements pre).2 = pre := by
    have := elements_rows pre
    rwa [hhead] at this
  have hrows' : flat (elements post).2 = post := by
    have := elements_rows post
    rwa [hhead'] at this
  have hels : elements (pre ++ post) = ([], (elements pre).2 ++ (elements post).2) := by
    have hflat : flat ((elements pre).2 ++ (elements post).2) = pre ++ post := by
      rw [flat_append, hrows, hrows']
    rw [← hflat]
    refine elements_flat fun el hel => ?_
    rcases List.mem_append.mp hel with hel | hel
    · exact elements_insert pre el hel
    · exact elements_insert post el hel
  refine ⟨_, _, hrows.symm, hrows'.symm, ?_, ?_⟩
  · simpa only [hels] using h.registers
  · simpa only [hels] using h.ordered

/-- What the last row belongs to is the last element. -/
theorem behind_flat {els : List (Row A × List (Row A))} (h : ∀ el ∈ els, RegisterRows el.1 el.2) :
    behind (flat els) = (els.map fun el => el.1.elem).getLast?.map Rga.Elem.id := by
  rcases List.eq_nil_or_concat els with rfl | ⟨els, ⟨r, rest⟩, rfl⟩
  · rfl
  · rw [List.concat_eq_append] at h ⊢
    have hreg := h _ (List.mem_append_right els List.mem_cons_self)
    rw [flat_snoc]
    unfold behind
    rw [List.getLast?_append_of_ne_nil _ (List.cons_ne_nil r rest),
      List.getLast?_eq_some_getLast (List.cons_ne_nil r rest), Option.bind_some,
      hreg.cursor _ (List.getLast_mem _)]
    simp [Row.elem]

/-- The rows of one element are in the order of their ids. -/
theorem SeqRows.sorted_cursor {rows : List (Row A)} (h : SeqRows rows)
    (hids : (rows.map Row.id).Nodup) :
    rows.Pairwise fun x y => x.cursor = y.cursor → x.id < y.id := by
  have hsplit : SeqRows (rows ++ []) := by rwa [List.append_nil]
  obtain ⟨els, els', rfl, -, hregs, -⟩ := hsplit.split fun r hr => by cases hr
  have hregs := fun el hel => hregs el (List.mem_append_left els' hel)
  unfold flat at hids ⊢
  rw [List.pairwise_flatMap]
  refine ⟨fun el hel => List.Pairwise.imp (fun {x y} hlt (_ : x.cursor = y.cursor) => hlt) (hregs el hel).sorted, ?_⟩
  rw [List.map_flatMap, List.nodup_flatMap] at hids
  refine hids.2.imp_of_mem fun {el el'} hel hel' hdisj x hx y hy heq => ?_
  -- two elements are made by different insertions
  rw [(hregs el hel).cursor x hx, (hregs el' hel').cursor y hy, Option.some.injEq] at heq
  exact absurd (List.mem_cons_self (l := el'.2.map Row.id)) (heq ▸ hdisj List.mem_cons_self)

/-! ## Putting a row in -/

section

variable {pre post : List (Row A)} {new : Row A}

/-- An operation on the element whose register ends. -/
theorem SeqRows.update (h : SeqRows (pre ++ post)) (hpost : ∀ r ∈ post.head?, r.insert = true)
    {e : OpId A} (hbehind : behind pre = some e) (hins : new.insert = false)
    (hkey : new.key = .seq (some e)) (hid : ∀ r ∈ pre ++ post, r.id < new.id) :
    SeqRows (pre ++ new :: post) := by
  obtain ⟨els, els', rfl, rfl, hregs, hord⟩ := h.split hpost
  rw [behind_flat fun el hel => hregs el (List.mem_append_left els' hel)] at hbehind
  rcases List.eq_nil_or_concat els with rfl | ⟨els, ⟨r, rest⟩, rfl⟩
  · cases hbehind
  rw [List.concat_eq_append] at *
  obtain rfl : r.id = e := by simpa [Row.elem] using hbehind
  have hreg : RegisterRows r rest := hregs (r, rest) (by simp)
  rw [show flat (els ++ [(r, rest)]) ++ new :: flat els' = flat (els ++ [(r, rest ++ [new])] ++ els') by
    rw [flat_snoc, flat_append, flat_snoc]
    simp]
  refine SeqRows.of_flat (fun el hel => ?_) (by simpa using hord)
  simp only [List.append_assoc, List.mem_append, List.mem_singleton] at hel
  rcases hel with hel | rfl | hel
  · exact hregs el (by simp [hel])
  · refine ⟨hreg.insert, fun x hx => ?_, ?_⟩
    · rcases List.mem_append.mp hx with hx | hx
      · exact hreg.updates x hx
      · rw [List.mem_singleton.mp hx]
        exact ⟨hins, hkey⟩
    · refine List.pairwise_append.mpr ⟨hreg.sorted, List.pairwise_singleton _ _, fun x hx y hy => ?_⟩
      rw [List.mem_singleton.mp hy]
      refine hid x (List.mem_append_left _ ?_)
      rw [flat_snoc]
      exact List.mem_append_right _ hx
  · exact hregs el (by simp [hel])

/-- An insertion that names the element whose register ends. -/
theorem SeqRows.insertion (h : SeqRows (pre ++ post)) (hpost : ∀ r ∈ post.head?, r.insert = true)
    (hins : new.insert = true) (hkey : new.key = .seq (behind pre))
    (hid : ∀ r ∈ pre ++ post, r.id < new.id) : SeqRows (pre ++ new :: post) := by
  obtain ⟨els, els', rfl, rfl, hregs, hord⟩ := h.split hpost
  have hbehind := behind_flat fun el hel => hregs el (List.mem_append_left els' hel)
  have href : new.elem.ref = behind (flat els) := by
    unfold Row.elem
    rw [hkey]
    rfl
  have hmem : ∀ el ∈ els ++ els', el.1.id < new.id := by
    intro el hel
    refine hid el.1 ?_
    rw [← flat_append]
    exact List.mem_flatMap.mpr ⟨el, hel, List.mem_cons_self⟩
  rw [show flat els ++ new :: flat els' = flat (els ++ (new, []) :: els') by
    rw [flat_append]
    rfl]
  refine SeqRows.of_flat (fun el hel => ?_) ?_
  · rcases List.mem_append.mp hel with hel | hel
    · exact hregs el (List.mem_append_left _ hel)
    · rcases List.mem_cons.mp hel with rfl | hel
      · exact ⟨hins, fun x hx => absurd hx List.not_mem_nil, List.pairwise_singleton _ _⟩
      · exact hregs el (List.mem_append_right _ hel)
  · rw [List.map_append] at hord ⊢
    refine hord.insert (Rga.behind_of_getLast (hbehind.symm.trans href.symm) fun p hp => ?_) ?_
    · rw [href, hbehind, Option.mem_def, Option.map_eq_some_iff] at hp
      obtain ⟨x, hx, rfl⟩ := hp
      obtain ⟨el, hel, rfl⟩ := List.mem_map.mp (List.mem_of_getLast? hx)
      exact hmem el (List.mem_append_left _ hel)
    · intro x hx
      obtain ⟨el, hel, rfl⟩ := List.mem_map.mp (List.mem_of_head? hx)
      exact hmem el (List.mem_append_right _ hel)

end

/-- What changes neither ids nor keys keeps the order. -/
theorem SeqRows.map {rows : List (Row A)} (h : SeqRows rows) {f : Row A → Row A}
    (hf : ∀ r, (f r).id = r.id ∧ (f r).key = r.key ∧ (f r).insert = r.insert) :
    SeqRows (rows.map f) := by
  have hsplit : SeqRows (rows ++ []) := by rwa [List.append_nil]
  obtain ⟨els, els', rfl, hnil, hregs, hord⟩ := hsplit.split fun r hr => by cases hr
  have hflat : (flat els).map f = flat (els.map fun el => (f el.1, el.2.map f)) := by
    unfold flat
    rw [List.map_flatMap, List.flatMap_map]
    rfl
  rw [hflat]
  refine SeqRows.of_flat (fun el hel => ?_) ?_
  · obtain ⟨el, hmem, rfl⟩ := List.mem_map.mp hel
    obtain ⟨hins, hrest, hsorted⟩ := hregs el (List.mem_append_left _ hmem)
    refine ⟨(hf el.1).2.2.trans hins, fun y hy => ?_, ?_⟩
    · obtain ⟨x, hx, rfl⟩ := List.mem_map.mp hy
      obtain ⟨hid, hkey, hxins⟩ := hf x
      rw [hxins, hkey, (hf el.1).1]
      exact hrest x hx
    · show List.Pairwise _ ((el.1 :: el.2).map f)
      rw [List.pairwise_map]
      refine hsorted.imp fun {x y} hxy => ?_
      rw [(hf x).1, (hf y).1]
      exact hxy
  · have helem : ∀ r, (f r).elem = r.elem := fun r => by
      unfold Row.elem
      rw [(hf r).1, (hf r).2.1]
    rw [List.map_map]
    rw [List.map_append] at hord
    rw [List.map_congr_left fun el _ => helem el.1]
    exact hord.left

end AutomergeR
