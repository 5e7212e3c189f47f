import AutomergeR.MapOps
import Mathlib.Data.List.Induction
import Mathlib.Data.List.TakeWhile

/-! # The rows of a list

A list's rows fall into elements: an insertion and the operations on it, up to the next
insertion. The index column `top` names one row of an element, the last that is visible,
and a position of the list counts these rows. What a position leads to is here stated
over a split of the rows around the element.
-/

namespace AutomergeR

variable {A : Type}

namespace OpSet

/-! ## Counting to a row -/

theorem nthPos_eq_some {p : Row A → Bool} : ∀ {rows : List (Row A)} {n pos : ℕ},
    nthPos p n rows = some pos →
      ∃ before r after, rows = before ++ r :: after ∧ before.length = pos ∧ p r = true ∧
        before.countP p = n := by
  intro rows
  induction rows with
  | nil =>
    intro n pos h
    cases h
  | cons r rows ih =>
    intro n pos h
    unfold nthPos at h
    by_cases hp : p r = true
    · rw [if_pos hp] at h
      cases n with
      | zero =>
        cases h
        exact ⟨[], r, rows, rfl, rfl, hp, rfl⟩
      | succ n =>
        obtain ⟨pos', hpos, rfl⟩ := Option.map_eq_some_iff.mp h
        obtain ⟨before, t, after, rfl, hl, ht, hc⟩ := ih hpos
        exact ⟨r :: before, t, after, rfl, congrArg (· + 1) hl, ht, by
          rw [List.countP_cons_of_pos hp, hc]⟩
    · rw [if_neg hp] at h
      obtain ⟨pos', hpos, rfl⟩ := Option.map_eq_some_iff.mp h
      obtain ⟨before, t, after, rfl, hl, ht, hc⟩ := ih hpos
      exact ⟨r :: before, t, after, rfl, congrArg (· + 1) hl, ht, by
        rw [List.countP_cons_of_neg hp, hc]⟩

theorem nthPos_countP {p : Row A → Bool} (before : List (Row A)) {r : Row A} (hr : p r = true)
    (after : List (Row A)) : nthPos p (before.countP p) (before ++ r :: after) = some before.length := by
  induction before with
  | nil => simp [nthPos, hr]
  | cons b before ih =>
    rw [List.cons_append, List.length_cons]
    unfold nthPos
    by_cases hb : p b = true
    · rw [if_pos hb, List.countP_cons_of_pos hb]
      show (nthPos p (before.countP p) (before ++ r :: after)).map (· + 1) = _
      rw [ih]
      rfl
    · rw [if_neg hb, List.countP_cons_of_neg hb, ih]
      rfl

/-! ## Elements -/

/-- `elem` holds the rows of one element, between those before and those behind it. -/
structure Element (pre elem post : List (Row A)) : Prop where
  head : ∀ r ∈ elem.head?, r.insert = true ∨ pre = []
  tail : ∀ r ∈ elem.tail, r.insert = false
  next : ∀ r ∈ post.head?, r.insert = true

/-- Every row is in an element. -/
theorem exists_element (before : List (Row A)) (r : Row A) (after : List (Row A)) :
    ∃ pre elem post k, Element pre elem post ∧ before ++ r :: after = pre ++ elem ++ post ∧
      before.length = pre.length + k ∧ k < elem.length := by
  -- up to the row: back to the last insertion
  have hup : ∀ l : List (Row A), l ≠ [] → ∃ pre first rest, l = pre ++ first :: rest ∧
      (first.insert = true ∨ pre = []) ∧ ∀ x ∈ rest, x.insert = false := by
    intro l
    induction l using List.reverseRecOn with
    | nil => exact fun h => absurd rfl h
    | append_singleton l x ih =>
      intro _
      by_cases hx : x.insert = true
      · exact ⟨l, x, [], rfl, Or.inl hx, fun y hy => absurd hy List.not_mem_nil⟩
      · by_cases hl : l = []
        · exact ⟨[], x, [], by rw [hl], Or.inr rfl, fun y hy => absurd hy List.not_mem_nil⟩
        · obtain ⟨pre, first, rest, rfl, hfirst, hrest⟩ := ih hl
          refine ⟨pre, first, rest ++ [x], by simp, hfirst, fun y hy => ?_⟩
          rcases List.mem_append.mp hy with hy | hy
          · exact hrest y hy
          · rw [List.mem_singleton.mp hy]
            exact Bool.eq_false_of_not_eq_true hx
  obtain ⟨pre, first, rest, hsplit, hfirst, hrest⟩ := hup (before ++ [r]) (by simp)
  -- and behind it up to the next one
  let more := after.takeWhile fun x => !x.insert
  have hlen := congrArg List.length hsplit
  simp only [List.length_append, List.length_cons, List.length_nil] at hlen
  refine ⟨pre, first :: (rest ++ more), after.dropWhile fun x => !x.insert, rest.length,
    ⟨?_, ?_, ?_⟩, ?_, by omega, ?_⟩
  · rintro x ⟨⟩
    exact hfirst
  · intro x hx
    rcases List.mem_append.mp hx with hx | hx
    · exact hrest x hx
    · simpa using List.mem_takeWhile_imp hx
  · intro x hx
    have hnot := List.head?_dropWhile_not (fun y : Row A => !y.insert) after
    rw [Option.mem_def] at hx
    rw [hx] at hnot
    simpa using hnot
  · have happ : before ++ r :: after = (before ++ [r]) ++ after := by simp
    rw [happ, hsplit]
    conv_lhs => rw [← List.takeWhile_append_dropWhile (p := fun x : Row A => !x.insert) (l := after)]
    simp [more]
  · simp only [List.length_cons, List.length_append]
    omega

theorem takeWhile_rest {rest post : List (Row A)} (hrest : ∀ r ∈ rest, r.insert = false)
    (hpost : ∀ r ∈ post.head?, r.insert = true) :
    (rest ++ post).takeWhile (fun r => !r.insert) = rest := by
  have hnil : post.takeWhile (fun r => !r.insert) = [] := by
    cases post with
    | nil => rfl
    | cons p post => simp [hpost p rfl]
  rw [List.takeWhile_append_of_pos (by simpa using hrest), hnil, List.append_nil]

section

variable {pre elem post : List (Row A)}

/-- From any of its rows the code finds the whole element. -/
theorem Element.bounds (h : Element pre elem post) {k : ℕ} (hk : k < elem.length) :
    registerStart (pre ++ elem ++ post) (pre.length + k) = pre.length ∧
      registerEnd (pre ++ elem ++ post) (pre.length + k) = (pre ++ elem).length := by
  obtain ⟨hhead, htail, hnext⟩ := h
  cases elem with
  | nil => cases hk
  | cons first rest =>
    rw [List.tail_cons] at htail
    have hk' : k ≤ rest.length := Nat.lt_succ_iff.mp hk
    have htake : (pre ++ (first :: rest) ++ post).take (pre.length + k + 1) =
        pre ++ first :: rest.take k := by
      rw [List.append_assoc, Nat.add_assoc, List.take_length_add_append, List.cons_append,
        List.take_succ_cons, List.take_append_of_le_length hk']
    have hdrop : (pre ++ (first :: rest) ++ post).drop (pre.length + k + 1) =
        rest.drop k ++ post := by
      rw [List.append_assoc, Nat.add_assoc, List.drop_length_add_append, List.cons_append,
        List.drop_succ_cons, List.drop_append_of_le_length hk']
    constructor
    · unfold registerStart
      rw [htake]
      have hback : (pre ++ first :: rest.take k).reverse =
          (rest.take k).reverse ++ first :: pre.reverse := by simp
      have hpass : ∀ r ∈ (rest.take k).reverse, (!r.insert) = true := by
        intro r hr
        rw [htail r (List.mem_of_mem_take (List.mem_reverse.mp hr))]
        rfl
      rw [hback, List.takeWhile_append_of_pos hpass, List.length_append, List.length_reverse,
        List.length_take_of_le hk']
      cases hf : first.insert with
      | true => simp [hf]
      | false =>
        rcases hhead first rfl with hf' | rfl
        · rw [hf] at hf'
          cases hf'
        · simp [hf]
    · unfold registerEnd
      rw [hdrop, takeWhile_rest (fun r hr => htail r (List.mem_of_mem_drop hr)) hnext,
        List.length_drop, List.length_append, List.length_cons]
      omega

theorem Element.register (h : Element pre elem post) {k : ℕ} (hk : k < elem.length) :
    OpSet.register (pre ++ elem ++ post) (pre.length + k) = elem := by
  obtain ⟨hstart, hend⟩ := h.bounds hk
  unfold OpSet.register
  rw [hstart, hend, List.take_left, List.drop_left]

/-- What an element is made of may change, its rows staying in place. -/
theorem Element.map (h : Element pre elem post) {f : Row A → Row A}
    (hf : ∀ r, (f r).insert = r.insert) : Element pre (elem.map f) post := by
  obtain ⟨hhead, htail, hnext⟩ := h
  refine ⟨fun r hr => ?_, fun r hr => ?_, hnext⟩
  · rw [List.head?_map] at hr
    obtain ⟨r', hr', rfl⟩ := Option.map_eq_some_iff.mp hr
    rw [hf]
    exact hhead r' hr'
  · rw [← List.map_tail] at hr
    obtain ⟨r', hr', rfl⟩ := List.mem_map.mp hr
    rw [hf]
    exact htail r' hr'

end

/-! ## Along the elements -/

/-- What holds of each row and the rows behind it in its element. -/
def Along (P : Row A → List (Row A) → Prop) : List (Row A) → Prop
  | [] => True
  | r :: rows => P r (rows.takeWhile fun x => !x.insert) ∧ Along P rows

section

variable {P : Row A → List (Row A) → Prop}

theorem along_cons {r : Row A} {rows : List (Row A)} :
    Along P (r :: rows) ↔ P r (rows.takeWhile fun x => !x.insert) ∧ Along P rows := Iff.rfl

theorem along_append {l post : List (Row A)} (hpost : ∀ r ∈ post.head?, r.insert = true) :
    Along P (l ++ post) ↔ Along P l ∧ Along P post := by
  induction l with
  | nil => simp [Along]
  | cons r l ih =>
    have htake : (l ++ post).takeWhile (fun x => !x.insert) = l.takeWhile fun x => !x.insert := by
      conv_lhs => rw [← List.takeWhile_append_dropWhile (p := fun x : Row A => !x.insert) (l := l),
        List.append_assoc]
      apply takeWhile_rest
      · intro x hx
        simpa using List.mem_takeWhile_imp hx
      · intro x hx
        cases hd : l.dropWhile fun x => !x.insert with
        | nil =>
          rw [hd] at hx
          exact hpost x hx
        | cons y ys =>
          have hnot := List.head?_dropWhile_not (fun y : Row A => !y.insert) l
          rw [hd] at hx hnot
          cases hx
          simpa using hnot
    rw [List.cons_append, along_cons, along_cons, htake, ih, and_assoc]

theorem Along.right : ∀ {l l' : List (Row A)}, Along P (l ++ l') → Along P l'
  | [], _, h => h
  | _ :: _, _, h => Along.right h.2

theorem takeWhile_all {rest : List (Row A)} (hrest : ∀ r ∈ rest, r.insert = false) :
    rest.takeWhile (fun r => !r.insert) = rest := by
  have hnext : ∀ r ∈ ([] : List (Row A)).head?, r.insert = true := fun r hr => by cases hr
  have h := takeWhile_rest hrest hnext
  rwa [List.append_nil] at h

/-- Within one element. -/
theorem along_element : ∀ {elem : List (Row A)}, (∀ r ∈ elem.tail, r.insert = false) →
    (Along P elem ↔ ∀ a t b, elem = a ++ t :: b → P t b) := by
  intro elem
  induction elem with
  | nil => exact fun _ => ⟨fun _ a t b h => absurd h (by simp), fun _ => trivial⟩
  | cons first rest ih =>
    intro hrest
    rw [List.tail_cons] at hrest
    rw [along_cons, takeWhile_all hrest, ih fun r hr => hrest r (List.mem_of_mem_tail hr)]
    constructor
    · rintro ⟨hfirst, hall⟩ a t b hsplit
      cases a with
      | nil =>
        cases hsplit
        exact hfirst
      | cons y a => exact hall a t b (List.cons.inj hsplit).2
    · intro hall
      refine ⟨hall [] first _ rfl, fun a t b hsplit => ?_⟩
      exact hall (first :: a) t b (by rw [hsplit]; rfl)

/-- The rows of an element and those around it. -/
theorem along_around {pre elem post : List (Row A)} (h : Element pre elem post) :
    Along P (pre ++ elem ++ post) ↔ Along P pre ∧ Along P elem ∧ Along P post := by
  rw [along_append h.next, and_assoc.symm]
  apply and_congr_left
  intro _
  cases elem with
  | nil => simp [Along]
  | cons first rest =>
    rcases h.head first rfl with hf | rfl
    · apply along_append
      rintro r ⟨⟩
      exact hf
    · simp [Along]

end

/-! ## The last visible row -/

/-- A row that `top` names is visible, and none of its element behind it is. -/
def TopLast : List (Row A) → Prop
  | [] => True
  | r :: rows =>
    (r.top = true → r.visible = true ∧
      ∀ r' ∈ rows.takeWhile fun x => !x.insert, r'.visible = false) ∧ TopLast rows

theorem topLast_iff {rows : List (Row A)} : TopLast rows ↔
    Along (fun r rest => r.top = true → r.visible = true ∧ ∀ x ∈ rest, x.visible = false) rows := by
  induction rows with
  | nil => exact Iff.rfl
  | cons r rows ih => exact and_congr_right fun _ => ih

theorem topLast_cons {r : Row A} {rows : List (Row A)} : TopLast (r :: rows) ↔
    (r.top = true → r.visible = true ∧
      ∀ r' ∈ rows.takeWhile fun x => !x.insert, r'.visible = false) ∧ TopLast rows := Iff.rfl

theorem topLast_append {l post : List (Row A)} (hpost : ∀ r ∈ post.head?, r.insert = true) :
    TopLast (l ++ post) ↔ TopLast l ∧ TopLast post := by
  rw [topLast_iff, topLast_iff, topLast_iff]
  exact along_append hpost

theorem TopLast.right {l l' : List (Row A)} (h : TopLast (l ++ l')) : TopLast l' :=
  topLast_iff.mpr (topLast_iff.mp h).right

theorem TopLast.left {l l' : List (Row A)} (h : TopLast (l ++ l')) : TopLast l := by
  induction l with
  | nil => trivial
  | cons r l ih =>
    obtain ⟨hr, hrest⟩ := h
    refine ⟨fun ht => ⟨(hr ht).1, fun x hx => (hr ht).2 x ?_⟩, ih hrest⟩
    show x ∈ (l ++ l').takeWhile fun y => !y.insert
    rw [List.takeWhile_append]
    split
    · exact List.mem_append_left _ ((List.takeWhile_sublist _).subset hx)
    · exact hx

/-- Within one element. -/
theorem topLast_element {elem : List (Row A)} (h : ∀ r ∈ elem.tail, r.insert = false) :
    TopLast elem ↔ ∀ a t b, elem = a ++ t :: b → t.top = true →
      t.visible = true ∧ ∀ r ∈ b, r.visible = false := by
  rw [topLast_iff]
  exact along_element h

/-- The rows of an element and those around it. -/
theorem topLast_around {pre elem post : List (Row A)} (h : Element pre elem post) :
    TopLast (pre ++ elem ++ post) ↔ TopLast pre ∧ TopLast elem ∧ TopLast post := by
  rw [topLast_iff, topLast_iff, topLast_iff, topLast_iff]
  exact along_around h

/-! ## The row a position leads to -/

/-- No row of `l` is named. -/
theorem countP_top_eq_zero {l : List (Row A)} (h : ∀ r ∈ l, r.top = false) :
    l.countP (·.top) = 0 := by
  apply List.countP_eq_zero.mpr
  intro r hr
  rw [h r hr]
  exact Bool.false_ne_true

/-- An element with the row `row` that `top` names: the last that is visible. -/
structure Place (A : Type) where
  pre : List (Row A)
  above : List (Row A)
  row : Row A
  below : List (Row A)
  post : List (Row A)
  element : Element pre (above ++ row :: below) post
  top : row.top = true
  visible : row.visible = true
  above_top : ∀ r ∈ above, r.top = false
  below_top : ∀ r ∈ below, r.top = false
  below_visible : ∀ r ∈ below, r.visible = false

namespace Place

def elem (p : Place A) : List (Row A) := p.above ++ p.row :: p.below

def rows (p : Place A) : List (Row A) := p.pre ++ p.elem ++ p.post

/-- Its position in the list. -/
def index (p : Place A) : ℕ := p.pre.countP (·.top)

theorem index_of_pre {p p' : Place A} (h : p'.pre = p.pre) : p'.index = p.index := by
  unfold index
  rw [h]

theorem elem_ne_nil (p : Place A) : p.elem ≠ [] := by
  unfold elem
  simp

theorem below_insert (p : Place A) {r : Row A} (hr : r ∈ p.below) : r.insert = false := by
  apply p.element.tail
  cases h : p.above with
  | nil => exact hr
  | cons x l => exact List.mem_append_right _ (List.mem_cons_of_mem _ hr)

/-- No other row of the element is named. -/
theorem eq_row (p : Place A) {r : Row A} (hr : r ∈ p.elem) (ht : r.top = true) : r = p.row := by
  rcases List.mem_append.mp hr with hr | hr
  · rw [p.above_top r hr] at ht
    cases ht
  · rcases List.mem_cons.mp hr with rfl | hr
    · rfl
    · rw [p.below_top r hr] at ht
      cases ht

/-- What `seek_list_ops_by_index` finds there. -/
theorem seek (p : Place A) : seekListOpsByIndex p.rows p.index =
    ⟨p.index, p.elem.filter (·.visible), (p.pre ++ p.elem).length⟩ := by
  have hk : p.above.length < p.elem.length := by simp [elem]
  have hrows : p.rows = (p.pre ++ p.above) ++ p.row :: (p.below ++ p.post) := by simp [rows, elem]
  have hpos : nthPos (·.top) p.index p.rows = some (p.pre.length + p.above.length) := by
    have hcount : (p.pre ++ p.above).countP (·.top) = p.index := by
      rw [List.countP_append, countP_top_eq_zero p.above_top, Nat.add_zero]
      rfl
    rw [← hcount, hrows, nthPos_countP _ p.top, List.length_append]
  unfold seekListOpsByIndex
  rw [hpos]
  have hel : Element p.pre p.elem p.post := p.element
  dsimp only
  unfold rows
  rw [hel.register hk, (hel.bounds hk).2]

theorem getLast? (p : Place A) : (p.elem.filter (·.visible)).getLast? = some p.row := by
  have hbelow : p.below.filter (·.visible) = [] := by
    apply List.filter_eq_nil_iff.mpr
    intro r hr
    rw [p.below_visible r hr]
    exact Bool.false_ne_true
  unfold elem
  rw [List.filter_append, List.filter_cons_of_pos p.visible, hbelow, List.getLast?_append_cons]
  rfl

theorem topLast (p : Place A) (hpre : TopLast p.pre) (hpost : TopLast p.post) :
    TopLast p.rows := by
  apply (topLast_around p.element).mpr
  refine ⟨hpre, (topLast_element p.element.tail).mpr ?_, hpost⟩
  intro a t b hsplit ht
  have hnot : ∀ r, r.top = false → t ≠ r := by
    rintro r hr rfl
    rw [hr] at ht
    cases ht
  -- the row named is `p.row`, being neither above nor below it
  rcases List.append_eq_append_iff.mp hsplit with ⟨c, hc, hc'⟩ | ⟨c, hc, hc'⟩
  · cases c with
    | nil =>
      obtain ⟨rfl, rfl⟩ := List.cons.inj hc'
      exact ⟨p.visible, p.below_visible⟩
    | cons x c =>
      have hmem : t ∈ p.below := by
        rw [(List.cons.inj hc').2]
        simp
      exact absurd rfl (hnot t (p.below_top t hmem))
  · cases c with
    | nil =>
      obtain ⟨rfl, rfl⟩ := List.cons.inj hc'
      exact ⟨p.visible, p.below_visible⟩
    | cons x c =>
      have hmem : t ∈ p.above := by
        rw [hc, (List.cons.inj hc').1]
        simp
      exact absurd rfl (hnot t (p.above_top t hmem))

end Place

theorem TopLast.place {rows : List (Row A)} (h : TopLast rows) {n pos : ℕ}
    (hpos : nthPos (·.top) n rows = some pos) :
    ∃ p : Place A, p.rows = rows ∧ p.index = n ∧ TopLast p.pre ∧ TopLast p.post := by
  obtain ⟨before, t, after, rfl, -, ht, hcount⟩ := nthPos_eq_some hpos
  obtain ⟨pre, elem, post, k, helem, hsplit, hlen, hk⟩ := exists_element before t after
  -- the row within its element
  have hpre : before = pre ++ elem.take k := by
    have htake := congrArg (List.take before.length) hsplit
    rw [List.take_left] at htake
    rw [htake, hlen, List.append_assoc, List.take_length_add_append,
      List.take_append_of_le_length hk.le]
  have htk : elem.drop k = t :: elem.drop (k + 1) := by
    have hget := congrArg (fun l => l[before.length]?) hsplit
    rw [List.getElem?_append_right (le_refl _), Nat.sub_self, List.getElem?_cons_zero, hlen,
      List.append_assoc, List.getElem?_append_right (Nat.le_add_right _ _), Nat.add_sub_cancel_left,
      List.getElem?_append_left hk, List.getElem?_eq_getElem hk] at hget
    rw [List.drop_eq_getElem_cons hk, ← Option.some.inj hget]
  have hel : elem = elem.take k ++ t :: elem.drop (k + 1) := by
    rw [← htk, List.take_append_drop]
  rw [hsplit] at h
  obtain ⟨hbefore, hin, hpost⟩ := (topLast_around helem).mp h
  have hin := (topLast_element helem.tail).mp hin
  obtain ⟨hvis, hbelow⟩ := hin _ t _ hel ht
  have habove : ∀ r ∈ elem.take k, r.top = false := by
    intro r hr
    apply Bool.eq_false_of_not_eq_true
    intro htop
    obtain ⟨a, b, hab⟩ := List.append_of_mem hr
    have hel' : elem = a ++ r :: (b ++ t :: elem.drop (k + 1)) := by
      conv_lhs => rw [hel, hab]
      simp
    have hno := (hin a r _ hel' htop).2 t (by simp)
    rw [hvis] at hno
    cases hno
  have hdown : ∀ r ∈ elem.drop (k + 1), r.top = false := by
    intro r hr
    apply Bool.eq_false_of_not_eq_true
    intro htop
    obtain ⟨a, b, hab⟩ := List.append_of_mem hr
    have hel' : elem = (elem.take k ++ t :: a) ++ r :: b := by
      conv_lhs => rw [hel, hab]
      simp
    have hyes := (hin _ r _ hel' htop).1
    rw [hbelow r hr] at hyes
    cases hyes
  have helem' : Element pre (elem.take k ++ t :: elem.drop (k + 1)) post := hel ▸ helem
  refine ⟨⟨pre, elem.take k, t, elem.drop (k + 1), post, helem', ht, hvis, habove, hdown,
    hbelow⟩, ?_, ?_, hbefore, hpost⟩
  · show pre ++ (elem.take k ++ t :: elem.drop (k + 1)) ++ post = _
    rw [hsplit, ← hel]
  · rw [hpre, List.countP_append, countP_top_eq_zero habove, Nat.add_zero] at hcount
    exact hcount

/-! ## Positions and the length -/

/-- No more rows are named than there are elements with a visible row. -/
theorem countP_top_le {rows : List (Row A)} (h : TopLast rows) :
    rows.countP (·.top) ≤ countElems rows false ∧
      rows.countP (·.top) ≤ countElems rows true + 1 ∧
      ((∀ r ∈ rows.takeWhile fun x => !x.insert, r.visible = false) →
        rows.countP (·.top) ≤ countElems rows true) := by
  induction rows with
  | nil => exact ⟨le_refl _, Nat.zero_le _, fun _ => le_refl _⟩
  | cons r rows ih =>
    obtain ⟨hr, hrows⟩ := h
    obtain ⟨hfalse, htrue, hrest⟩ := ih hrows
    have hcount : (r :: rows).countP (·.top) ≤
        (if r.visible = true then countElems rows true + 1 else countElems rows false) := by
      by_cases ht : r.top = true
      · obtain ⟨hvis, hbehind⟩ := hr ht
        rw [List.countP_cons_of_pos ht, if_pos hvis]
        exact Nat.succ_le_succ (hrest hbehind)
      · rw [List.countP_cons_of_neg ht]
        split
        · exact htrue
        · exact hfalse
    have hopen : countElems (r :: rows) false =
        if r.visible = true then countElems rows true + 1 else countElems rows false := by
      simp [countElems]
    cases hins : r.insert with
    | true =>
      have hclosed : countElems (r :: rows) true = countElems (r :: rows) false := by
        simp [countElems, hins]
      rw [hclosed, hopen]
      exact ⟨hcount, hcount.trans (Nat.le_succ _), fun _ => hcount⟩
    | false =>
      have hclosed : countElems (r :: rows) true = countElems rows true := by
        simp [countElems, hins]
      rw [hclosed, hopen]
      refine ⟨hcount, ?_, fun hnone => ?_⟩
      · by_cases ht : r.top = true
        · rw [List.countP_cons_of_pos ht]
          exact Nat.succ_le_succ (hrest (hr ht).2)
        · rw [List.countP_cons_of_neg ht]
          exact htrue
      · rw [List.takeWhile_cons_of_pos (by rw [hins]; rfl)] at hnone
        have ht : ¬ r.top = true := by
          intro ht
          have hvis := (hr ht).1
          rw [hnone r List.mem_cons_self] at hvis
          cases hvis
        rw [List.countP_cons_of_neg ht]
        exact hrest fun x hx => hnone x (List.mem_cons_of_mem _ hx)

/-- A place is within the list. -/
theorem Place.index_lt (p : Place A) (h : TopLast p.rows) : p.index < countElems p.rows false := by
  have hle := (countP_top_le h).1
  have hcount : p.rows.countP (·.top) = p.index + 1 + p.post.countP (·.top) := by
    unfold rows elem index
    rw [List.countP_append, List.countP_append, List.countP_append, List.countP_cons_of_pos p.top,
      countP_top_eq_zero p.above_top, countP_top_eq_zero p.below_top, Nat.zero_add, Nat.zero_add]
  omega

end OpSet

/-- What the rows of a list look like: they begin with an insertion, belong to elements,
there are no marks among them, an increment is never visible, and of each element at most
one row is named. -/
structure ListRows (rows : List (Row A)) : Prop where
  head : ∀ r ∈ rows.head?, r.insert = true
  key : ∀ r ∈ rows, ∃ e, r.key = .seq e
  unmarked : ∀ r ∈ rows, r.action.isMark = false
  isInc : ∀ r ∈ rows, r.isInc = true → r.visible = false
  topLast : OpSet.TopLast rows

theorem ListRows.nil : ListRows ([] : List (Row A)) where
  head _ hr := by cases hr
  key _ hr := absurd hr List.not_mem_nil
  unmarked _ hr := absurd hr List.not_mem_nil
  isInc _ hr := absurd hr List.not_mem_nil
  topLast := trivial

/-! ## Writing to an element -/

section

variable [LinearOrder A]

theorem Row.addSucc_top (r : Row A) (s : OpId A × Option ℤ) :
    (r.addSucc s).top = (r.top && r.action.isCounter && s.2.isSome) := by
  cases hc : r.action.isCounter <;> cases hs : s.2.isSome <;> simp [addSucc, hc, hs]

namespace Tx

theorem mem_succRows {rows : List (Row A)} {ids : List (OpId A)} {s : OpId A × Option ℤ}
    {r : Row A} (h : r ∈ succRows rows ids s) :
    ∃ r' ∈ rows, r = if r'.id ∈ ids then r'.addSucc s else r' := by
  obtain ⟨r', hr', rfl⟩ := List.mem_map.mp h
  exact ⟨r', hr', rfl⟩

theorem succRows_insert {rows : List (Row A)} {ids : List (OpId A)} {s : OpId A × Option ℤ}
    (h : ∀ r ∈ rows, r.insert = false) : ∀ r ∈ succRows rows ids s, r.insert = false := by
  intro r hr
  obtain ⟨r', hr', rfl⟩ := mem_succRows hr
  split
  · rw [Row.addSucc_insert]
    exact h r' hr'
  · exact h r' hr'

/-- A successor makes no row visible. -/
theorem succRows_hidden {rows : List (Row A)} {ids : List (OpId A)} {s : OpId A × Option ℤ}
    (h : ∀ r ∈ rows, r.visible = false) : ∀ r ∈ succRows rows ids s, r.visible = false := by
  intro r hr
  obtain ⟨r', hr', rfl⟩ := mem_succRows hr
  split
  · rw [Row.addSucc_visible, h r' hr']
    rfl
  · exact h r' hr'

theorem succRows_top {rows : List (Row A)} {ids : List (OpId A)} {s : OpId A × Option ℤ}
    (h : ∀ r ∈ rows, r.top = false) : ∀ r ∈ succRows rows ids s, r.top = false := by
  intro r hr
  obtain ⟨r', hr', rfl⟩ := mem_succRows hr
  split
  · rw [Row.addSucc_top, h r' hr']
    rfl
  · exact h r' hr'

theorem succRows_of_disjoint {rows : List (Row A)} {ids : List (OpId A)} {s : OpId A × Option ℤ}
    (h : ∀ r ∈ rows, r.id ∉ ids) : succRows rows ids s = rows := by
  unfold succRows
  conv_rhs => rw [← List.map_id rows]
  apply List.map_congr_left
  intro r hr
  rw [if_neg (h r hr)]
  rfl

end Tx

namespace OpSet

theorem Element.succRows {pre elem post : List (Row A)} (h : Element pre elem post)
    (ids : List (OpId A)) (s : OpId A × Option ℤ) {more : List (Row A)}
    (hmore : ∀ r ∈ more, r.insert = false) (hne : elem ≠ []) :
    Element pre (Tx.succRows elem ids s ++ more) post := by
  obtain ⟨hhead, htail, hnext⟩ := h
  cases elem with
  | nil => exact absurd rfl hne
  | cons first rest =>
    refine ⟨?_, ?_, hnext⟩
    · rintro r ⟨⟩
      have hf := hhead first rfl
      dsimp only
      split
      · rw [Row.addSucc_insert]
        exact hf
      · exact hf
    · intro r hr
      rcases List.mem_append.mp (show r ∈ Tx.succRows rest ids s ++ more from hr) with hr | hr
      · exact Tx.succRows_insert htail r hr
      · exact hmore r hr

namespace Place

/-- An operation on the element touches no other row. -/
theorem overwrite (p : Place A) (hnd : (p.rows.map Row.id).Nodup) {ids : List (OpId A)}
    (hids : ∀ i ∈ ids, ∃ r ∈ p.elem, r.id = i) {new : List (Row A)} (hnew : ∀ r ∈ new, r.id ∉ ids)
    (s : OpId A × Option ℤ) :
    Tx.overwrite p.rows (p.pre ++ p.elem).length new ids s =
      p.pre ++ (Tx.succRows p.elem ids s ++ new) ++ p.post := by
  have hdisj : ∀ l : List (Row A), (∀ r ∈ l, ∀ r' ∈ p.elem, r.id ≠ r'.id) →
      Tx.succRows l ids s = l := by
    intro l hl
    apply Tx.succRows_of_disjoint
    intro r hr hin
    obtain ⟨r', hr', hid⟩ := hids _ hin
    exact hl r hr r' hr' hid.symm
  unfold rows at hnd
  rw [List.map_append, List.map_append] at hnd
  obtain ⟨hleft, -, hright⟩ := List.nodup_append'.mp hnd
  have hmid := (List.nodup_append'.mp hleft).2.2
  have hpre : Tx.succRows p.pre ids s = p.pre := by
    apply hdisj
    intro r hr r' hr' he
    exact hmid (List.mem_map_of_mem hr) (he ▸ List.mem_map_of_mem hr')
  have hpost : Tx.succRows p.post ids s = p.post := by
    apply hdisj
    intro r hr r' hr' he
    exact hright (List.mem_append_right _ (List.mem_map_of_mem hr')) (he ▸ List.mem_map_of_mem hr)
  have hadd : Tx.succRows new ids s = new := Tx.succRows_of_disjoint hnew
  have hsplit : ∀ l l' : List (Row A),
      Tx.succRows (l ++ l') ids s = Tx.succRows l ids s ++ Tx.succRows l' ids s :=
    fun l l' => List.map_append
  unfold Tx.overwrite rows
  rw [List.take_left, List.drop_left, hsplit, hsplit, hsplit, hpre, hpost, hadd]
  simp

/-- The operations `localListOp` works on. -/
def ids (p : Place A) : List (OpId A) := (p.elem.filter (·.visible)).map Row.id

omit [LinearOrder A] in
theorem mem_ids (p : Place A) {r : Row A} (hr : r ∈ p.elem) (hv : r.visible = true) :
    r.id ∈ p.ids := List.mem_map_of_mem (List.mem_filter.mpr ⟨hr, hv⟩)

omit [LinearOrder A] in
theorem row_mem (p : Place A) : p.row ∈ p.elem := by
  unfold elem
  simp

/-- All that is visible is hidden. -/
theorem succRows_ids (p : Place A) (id : OpId A) :
    ∀ r ∈ Tx.succRows p.elem p.ids (id, none), r.visible = false ∧ r.top = false := by
  intro r hr
  obtain ⟨r', hr', rfl⟩ := Tx.mem_succRows hr
  by_cases hv : r'.visible = true
  · rw [if_pos (p.mem_ids hr' hv), Row.addSucc_top, Row.addSucc_visible]
    simp
  · have hv' : r'.visible = false := Bool.eq_false_of_not_eq_true hv
    have ht : r'.top = false := by
      apply Bool.eq_false_of_not_eq_true
      intro ht
      rw [p.eq_row hr' ht, p.visible] at hv'
      cases hv'
    split
    · rw [Row.addSucc_top, Row.addSucc_visible, hv', ht]
      exact ⟨rfl, rfl⟩
    · exact ⟨hv', ht⟩

/-- The named row is hidden together with all that is visible, and a new one takes its
place. -/
def write (p : Place A) (id : OpId A) (new : Row A) (hins : new.insert = false)
    (htop : new.top = true) (hvis : new.visible = true) : Place A where
  pre := p.pre
  above := Tx.succRows p.elem p.ids (id, none)
  row := new
  below := []
  post := p.post
  element := by
    apply p.element.succRows _ _ _ p.elem_ne_nil
    intro r hr
    rw [List.mem_singleton.mp hr]
    exact hins
  top := htop
  visible := hvis
  above_top r hr := (p.succRows_ids id r hr).2
  below_top r hr := absurd hr List.not_mem_nil
  below_visible r hr := absurd hr List.not_mem_nil

section

variable (p : Place A) (ids : List (OpId A)) (s : OpId A × Option ℤ) (row : Row A)
    (hrow : Tx.succRows [p.row] ids s = [row]) (more : List (Row A))
    (hmore : ∀ r ∈ more, r.insert = false ∧ r.visible = false ∧ r.top = false)

theorem above_top_amend : ∀ r ∈ Tx.succRows p.above ids s, r.top = false :=
  Tx.succRows_top p.above_top

include hrow hmore in
theorem element_amend : Element p.pre
    (Tx.succRows p.above ids s ++ row :: (Tx.succRows p.below ids s ++ more)) p.post := by
  have h := p.element.succRows ids s (fun r hr => (hmore r hr).1) p.elem_ne_nil
  have hhead : (if p.row.id ∈ ids then p.row.addSucc s else p.row) = row := (List.cons.inj hrow).1
  unfold Tx.succRows at h ⊢
  rwa [List.map_append, List.map_cons, hhead, List.append_assoc] at h

include hmore in
theorem below_top_amend : ∀ r ∈ Tx.succRows p.below ids s ++ more, r.top = false := by
  intro r hr
  rcases List.mem_append.mp hr with hr | hr
  · exact Tx.succRows_top p.below_top r hr
  · exact (hmore r hr).2.2

include hmore in
theorem below_visible_amend : ∀ r ∈ Tx.succRows p.below ids s ++ more, r.visible = false := by
  intro r hr
  rcases List.mem_append.mp hr with hr | hr
  · exact Tx.succRows_hidden p.below_visible r hr
  · exact (hmore r hr).2.1

/-- Other rows of the element get a successor, and the rows `more` are put behind it. -/
def amend (htop : row.top = true) (hvis : row.visible = true) : Place A where
  pre := p.pre
  above := Tx.succRows p.above ids s
  row := row
  below := Tx.succRows p.below ids s ++ more
  post := p.post
  element := element_amend p ids s row hrow more hmore
  top := htop
  visible := hvis
  above_top := above_top_amend p ids s
  below_top := below_top_amend p ids s more hmore
  below_visible := below_visible_amend p ids s more hmore

theorem amend_rows (htop : row.top = true) (hvis : row.visible = true) :
    (p.amend ids s row hrow more hmore htop hvis).rows =
      p.pre ++ (Tx.succRows p.elem ids s ++ more) ++ p.post := by
  show p.pre ++ (Tx.succRows p.above ids s ++ row :: (Tx.succRows p.below ids s ++ more)) ++
    p.post = _
  have hhead : (if p.row.id ∈ ids then p.row.addSucc s else p.row) = row := (List.cons.inj hrow).1
  unfold elem Tx.succRows
  rw [List.map_append, List.map_cons, hhead, List.append_assoc (List.map _ p.above), List.cons_append]

end

/-- When all that is visible is deleted, the element has no named row any more. -/
theorem topLast_deleted (p : Place A) (h : TopLast p.rows) (id : OpId A) :
    TopLast (p.pre ++ Tx.succRows p.elem p.ids (id, none) ++ p.post) := by
  obtain ⟨hpre, -, hpost⟩ := (topLast_around p.element).mp h
  have hel : Element p.pre (Tx.succRows p.elem p.ids (id, none)) p.post := by
    have hmore : ∀ r ∈ ([] : List (Row A)), r.insert = false := fun r hr => absurd hr List.not_mem_nil
    have h := p.element.succRows p.ids (id, none) hmore p.elem_ne_nil
    rwa [List.append_nil] at h
  apply (topLast_around hel).mpr
  refine ⟨hpre, (topLast_element hel.tail).mpr ?_, hpost⟩
  intro a t b hsplit ht
  have hmem : t ∈ Tx.succRows p.elem p.ids (id, none) := by
    rw [hsplit]
    simp
  rw [(p.succRows_ids id t hmem).2] at ht
  cases ht

end Place

end OpSet

end

end AutomergeR
