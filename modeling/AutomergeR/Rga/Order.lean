import Mathlib.Data.Finset.Max
import Mathlib.Data.List.Nodup

/-! # The order of a replicated sequence

In a replicated growable array every element has an id that grows with time, and names the
element it was put behind, or the head. What was put behind the same element later stands
closer to it. `Ordered` says this of the list of the elements: between an element and the
one it names there are only younger ones.

- `Ordered.insert`: how a list stays in order when an element is put in.
- `Ordered.unique`: the elements of an ordered list determine the list.
- `Ready`: what a walk keeps that weaves new elements into an ordered list, with a stack of
  those that are next.
-/

namespace Rga

/-- An element, and the element it was put behind; `none` stands for the head. -/
structure Elem (I : Type*) where
  id : I
  ref : Option I

variable {I : Type*} [LinearOrder I] {pre post out rest : List (Elem I)} {y z : Elem I}

/-- The element can stand right behind `pre`: what separates it from the one it names is
younger than it is. -/
def Behind (pre : List (Elem I)) (y : Elem I) : Prop :=
  ∃ a b, pre = a ++ b ∧ a.getLast?.map Elem.id = y.ref ∧ (∀ p ∈ y.ref, p < y.id) ∧
    ∀ z ∈ b, y.id < z.id

/-- Every element stands where it should. -/
def Ordered (l : List (Elem I)) : Prop := ∀ pre y post, l = pre ++ y :: post → Behind pre y

/-! ## Places -/

/-- Right behind the element it names. -/
theorem behind_of_getLast (h : pre.getLast?.map Elem.id = y.ref) (hlt : ∀ p ∈ y.ref, p < y.id) :
    Behind pre y :=
  ⟨pre, [], by simp, h, hlt, by simp⟩

theorem Behind.snoc (h : Behind pre y) (hlt : y.id < z.id) : Behind (pre ++ [z]) y := by
  obtain ⟨a, b, rfl, hlast, href, hb⟩ := h
  refine ⟨a, b ++ [z], by rw [List.append_assoc], hlast, href, fun x hx => ?_⟩
  rcases List.mem_append.mp hx with hx | hx
  · exact hb x hx
  · rw [List.mem_singleton] at hx
    exact hx ▸ hlt

/-- An element that is older than all the others is right behind the one it names. -/
theorem Behind.getLast (h : Behind pre y) (hmax : ∀ x ∈ pre, x.id < y.id) :
    pre.getLast?.map Elem.id = y.ref := by
  obtain ⟨a, b, rfl, hlast, -, hb⟩ := h
  have hnil : b = [] := by
    refine List.eq_nil_iff_forall_not_mem.mpr fun x hx => ?_
    exact lt_asymm (hb x hx) (hmax x (List.mem_append_right a hx))
  rwa [hnil, List.append_nil]

/-- A new element in the gap before `rest` separates nothing from what it names, if it is
younger than the first of `rest`. -/
theorem Behind.insert {s : List (Elem I)} (h : Behind (out ++ s) z)
    (hlt : ∀ r ∈ (s ++ [z]).head?, r.id < y.id) : Behind (out ++ y :: s) z := by
  obtain ⟨a, b, hab, hlast, href, hb⟩ := h
  -- in the first case the element it names is behind the gap, unless `c` is empty
  rcases List.append_eq_append_iff.mp hab with ⟨c, rfl, rfl⟩ | ⟨c, rfl, rfl⟩
  · cases c with
    | nil =>
      refine ⟨out, y :: b, by simp, by simpa using hlast, href, fun x hx => ?_⟩
      rcases List.mem_cons.mp hx with rfl | hx
      · cases b with
        | nil => exact hlt z rfl
        | cons r b => exact (hb r List.mem_cons_self).trans (hlt r rfl)
      · exact hb x hx
    | cons r c =>
      refine ⟨out ++ y :: r :: c, b, by simp, ?_, href, hb⟩
      rw [← hlast]
      simp
  · refine ⟨a, c ++ y :: s, by simp, hlast, href, fun x hx => ?_⟩
    rcases List.mem_append.mp hx with hx | hx
    · exact hb x (List.mem_append_left s hx)
    · rcases List.mem_cons.mp hx with rfl | hx
      · cases s with
        | nil => exact hlt z rfl
        | cons r s => exact (hb r (by simp)).trans (hlt r rfl)
      · exact hb x (List.mem_append_right c hx)

/-- Nor does it when an element that nothing refers to is taken out. -/
theorem Behind.erase {s : List (Elem I)} (h : Behind (out ++ y :: s) z) (hne : z.ref ≠ some y.id) :
    Behind (out ++ s) z := by
  obtain ⟨a, b, hab, hlast, href, hb⟩ := h
  rcases List.append_eq_append_iff.mp hab with ⟨c, rfl, hc⟩ | ⟨c, rfl, hc⟩
  · cases c with
    | nil =>
      refine ⟨out, s, rfl, by simpa using hlast, href, fun x hx => hb x ?_⟩
      rw [← List.nil_append b, ← hc]
      exact List.mem_cons_of_mem y hx
    | cons r c =>
      obtain ⟨rfl, rfl⟩ := List.cons.inj hc
      cases c with
      | nil => exact absurd (by simpa using hlast.symm) hne
      | cons r c =>
        refine ⟨out ++ r :: c, b, by simp, ?_, href, hb⟩
        rw [← hlast]
        simp
  · refine ⟨a, c ++ s, by simp, hlast, href, fun x hx => hb x ?_⟩
    rw [hc]
    rcases List.mem_append.mp hx with hx | hx
    · exact List.mem_append_left _ hx
    · exact List.mem_append_right c (List.mem_cons_of_mem y hx)

/-! ## Putting in and taking out -/

theorem Ordered.nil : Ordered ([] : List (Elem I)) := by
  intro pre y post h
  simp at h

theorem Ordered.left {l l' : List (Elem I)} (h : Ordered (l ++ l')) : Ordered l := by
  rintro pre y post rfl
  exact h pre y (post ++ l') (by simp)

/-- **An element can be put in** where it can stand, before an older one. -/
theorem Ordered.insert (h : Ordered (out ++ rest)) (hy : Behind out y)
    (hlt : ∀ r ∈ rest.head?, r.id < y.id) : Ordered (out ++ y :: rest) := by
  intro pre z post heq
  rcases List.append_eq_append_iff.mp heq with ⟨c, rfl, hc⟩ | ⟨c, rfl, hc⟩
  · cases c with
    | nil =>
      obtain ⟨rfl, rfl⟩ := List.cons.inj hc
      rwa [List.append_nil]
    | cons r c =>
      obtain ⟨rfl, rfl⟩ := List.cons.inj hc
      refine (h (out ++ c) z post (by simp)).insert fun x hx => hlt x ?_
      cases c with
      | nil => exact hx
      | cons r c => exact hx
  · cases c with
    | nil =>
      obtain ⟨rfl, rfl⟩ := List.cons.inj hc
      rwa [List.append_nil] at hy
    | cons r c =>
      obtain ⟨rfl, rfl⟩ := List.cons.inj hc
      exact h pre z (c ++ rest) (by simp)

/-- The youngest element can be taken out. -/
theorem Ordered.erase (h : Ordered (pre ++ y :: post)) (hmax : ∀ x ∈ pre ++ post, x.id < y.id) :
    Ordered (pre ++ post) := by
  intro p z q heq
  have hz : z.id < y.id := hmax z (by rw [heq]; simp)
  rcases List.append_eq_append_iff.mp heq with ⟨c, rfl, rfl⟩ | ⟨c, rfl, hc⟩
  · have hb := h (pre ++ y :: c) z q (by simp)
    refine hb.erase fun href => ?_
    obtain ⟨-, -, -, -, hlt, -⟩ := hb
    exact lt_asymm hz (hlt y.id href)
  · cases c with
    | nil =>
      have hb := h (p ++ [y]) z q (by simp [List.nil_append, ← (show z :: q = post from hc)])
      refine (List.append_nil p) ▸ hb.erase fun href => ?_
      obtain ⟨-, -, -, -, hlt, -⟩ := hb
      exact lt_asymm hz (hlt y.id href)
    | cons r c =>
      obtain ⟨rfl, rfl⟩ := List.cons.inj hc
      exact h p z (c ++ y :: post) (by simp)

/-! ## One order -/

theorem exists_max {l : List (Elem I)} (hne : l ≠ []) : ∃ y ∈ l, ∀ x ∈ l, x.id ≤ y.id := by
  classical
  obtain ⟨y, hy, hmax⟩ := Finset.exists_max_image l.toFinset Elem.id
    (List.toFinset_nonempty_iff l |>.mpr hne)
  exact ⟨y, List.mem_toFinset.mp hy, fun x hx => hmax x (List.mem_toFinset.mpr hx)⟩

omit [LinearOrder I] in
/-- Equal lists are cut at the same place by an id. -/
theorem split_unique {p q p' q' : List (Elem I)} (heq : p ++ q = p' ++ q')
    (hnd : ((p ++ q).map Elem.id).Nodup) (hlast : p.getLast?.map Elem.id = p'.getLast?.map Elem.id) :
    p = p' := by
  -- one of the two is longer by `c`, whose last element would be there twice
  have key : ∀ {a c b : List (Elem I)}, ((a ++ c ++ b).map Elem.id).Nodup →
      (a ++ c).getLast?.map Elem.id = a.getLast?.map Elem.id → c = [] := by
    intro a c b hnd hlast
    rcases List.eq_nil_or_concat c with rfl | ⟨c, x, rfl⟩
    · rfl
    · rw [List.concat_eq_append, ← List.append_assoc, List.getLast?_concat, Option.map_some] at hlast
      obtain ⟨w, hw, hid⟩ := Option.map_eq_some_iff.mp hlast.symm
      have hwa := List.mem_of_getLast? hw
      rw [List.map_append, List.map_append] at hnd
      have hdisj := (List.nodup_append.mp (List.nodup_append.mp hnd).1).2.2
      exact absurd hid (hdisj _ (List.mem_map_of_mem hwa) _ (List.mem_map_of_mem (by simp)))
  rcases List.append_eq_append_iff.mp heq with ⟨c, rfl, rfl⟩ | ⟨c, rfl, rfl⟩
  · rw [← List.append_assoc] at hnd
    rw [key hnd hlast.symm, List.append_nil]
  · rw [key hnd hlast, List.append_nil]

/-- **The elements of an ordered list determine the list.** The youngest one is right behind
the one it names in both lists, and what is left without it is in order. -/
theorem Ordered.unique {l l' : List (Elem I)} (h : Ordered l) (h' : Ordered l') (hperm : l.Perm l')
    (hnd : (l.map Elem.id).Nodup) : l = l' := by
  induction hn : l.length generalizing l l' with
  | zero =>
    rw [List.length_eq_zero_iff.mp hn] at hperm ⊢
    exact (List.nil_perm.mp hperm).symm
  | succ n ih =>
    obtain ⟨y, hy, hmax⟩ := exists_max (List.ne_nil_of_length_eq_add_one hn)
    obtain ⟨pre, post, rfl⟩ := List.append_of_mem hy
    obtain ⟨pre', post', rfl⟩ := List.append_of_mem (hperm.subset hy)
    have hrest : (pre ++ post).Perm (pre' ++ post') :=
      (List.perm_middle.symm.trans (hperm.trans List.perm_middle)).cons_inv
    have hnodup := (List.perm_middle.map Elem.id).nodup_iff.mp hnd
    rw [List.map_cons, List.nodup_cons] at hnodup
    have hlt : ∀ z ∈ pre ++ post, z.id < y.id := fun z hz =>
      (hmax z (List.perm_middle.symm.subset (List.mem_cons_of_mem y hz))).lt_of_ne fun hid =>
        hnodup.1 (hid ▸ List.mem_map_of_mem hz)
    have hlt' : ∀ z ∈ pre' ++ post', z.id < y.id := fun z hz => hlt z (hrest.symm.subset hz)
    have heq := ih (h.erase hlt) (h'.erase hlt') hrest hnodup.2 (by
      simp only [List.length_append, List.length_cons] at hn ⊢
      omega)
    have hlast := (h pre y post rfl).getLast fun z hz => hlt z (List.mem_append_left post hz)
    have hlast' := (h' pre' y post' rfl).getLast fun z hz => hlt' z (List.mem_append_left post' hz)
    obtain rfl := split_unique heq hnodup.2 (hlast.trans hlast'.symm)
    rw [List.append_cancel_left heq]

/-! ## Weaving new elements in -/

/-- A walk has put out `out` and is to pass `rest`. The elements on the stack, the youngest
on top, can all stand where it is. -/
structure Ready (out rest stack : List (Elem I)) : Prop where
  ordered : Ordered (out ++ rest)
  behind : ∀ c ∈ stack, Behind out c
  sorted : stack.Pairwise fun c d => d.id < c.id

variable {stack children : List (Elem I)}

/-- Elements that name the last one go on top of those that are older than it. -/
theorem Ready.push (hordered : Ordered ((out ++ [y]) ++ rest)) (hbehind : ∀ c ∈ stack, Behind out c)
    (hsorted : stack.Pairwise fun c d => d.id < c.id) (hold : ∀ c ∈ stack, c.id < y.id)
    (href : ∀ c ∈ children, c.ref = some y.id ∧ y.id < c.id)
    (hchildren : children.Pairwise fun c d => d.id < c.id) :
    Ready (out ++ [y]) rest (children ++ stack) where
  ordered := hordered
  behind c hc := by
    rcases List.mem_append.mp hc with hc | hc
    · refine behind_of_getLast (by simp [(href c hc).1]) fun p hp => ?_
      rw [(href c hc).1] at hp
      cases hp
      exact (href c hc).2
    · exact (hbehind c hc).snoc (hold c hc)
  sorted := List.pairwise_append.mpr ⟨hchildren, hsorted, fun c hc d hd =>
    (hold d hd).trans (href c hc).2⟩

/-- The top of the stack is put out, if it is younger than what comes next. -/
theorem Ready.place (h : Ready out rest (y :: stack)) (hlt : ∀ r ∈ rest.head?, r.id < y.id)
    (href : ∀ c ∈ children, c.ref = some y.id ∧ y.id < c.id)
    (hchildren : children.Pairwise fun c d => d.id < c.id) :
    Ready (out ++ [y]) rest (children ++ stack) := by
  obtain ⟨hold, hsorted⟩ := List.pairwise_cons.mp h.sorted
  have hordered := h.ordered.insert (h.behind y List.mem_cons_self) hlt
  exact Ready.push (by simpa using hordered) (fun c hc => h.behind c (List.mem_cons_of_mem y hc))
    hsorted hold href hchildren

/-- The next element is passed, once the stack is older than it. -/
theorem Ready.pass (h : Ready out (y :: rest) stack) (hold : ∀ c ∈ stack, c.id < y.id)
    (href : ∀ c ∈ children, c.ref = some y.id ∧ y.id < c.id)
    (hchildren : children.Pairwise fun c d => d.id < c.id) :
    Ready (out ++ [y]) rest (children ++ stack) :=
  Ready.push (by simpa using h.ordered) h.behind h.sorted hold href hchildren

end Rga
