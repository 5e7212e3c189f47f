import AutomergeR.Merges
import AutomergeR.SeqRows

/-! # How new elements are woven in

A walk of a sequence passes the elements of the document and those of the batch, the latter
from a stack. When an element has been passed, the insertions that name it go on the stack,
so each insertion of the batch is on the stack once and passed once (`mem_weave`), and each
operation of the batch gets into one register (`changes_walkList`).
-/

namespace AutomergeR

variable {A : Type} [LinearOrder A]

/-- What a walk passes: an insertion of the batch, or an element of the document with the
operations on it. -/
abbrev Step (A : Type) := ChangeOp A ⊕ Row A × List (Row A)

/-- The insertions that `untangleTo` passes, and what it leaves on the stack. -/
def untangled (ops : List (ChangeOp A)) (n : ℕ) :
    ℕ → List (ChangeOp A) → List (ChangeOp A) × List (ChangeOp A)
  | 0, stack => ([], stack)
  | _ + 1, [] => ([], [])
  | fuel + 1, c :: stack =>
    if stack.length < n then ([], c :: stack)
    else
      let (cs, stack) := untangled ops n fuel ((insertsAt ops (some c.id)).reverse ++ stack)
      (c :: cs, stack)

/-- What `walkList` passes. -/
def weave (ops : List (ChangeOp A)) :
    List (Row A × List (Row A)) → (stack : List (ChangeOp A)) → List (Step A)
  | [], stack => (untangled ops 0 ops.length stack).1.map .inl
  | (r, rest) :: els, stack =>
    let (cs, stack) := untangled ops (stack.countP fun c => c.id < r.id) ops.length stack
    cs.map .inl ++ .inr (r, rest) :: weave ops els ((insertsAt ops (some r.id)).reverse ++ stack)

namespace Step

/-- The register of an element. -/
def register (ops : List (ChangeOp A)) : Step A → Register A
  | .inl c => .fresh (c :: followers ops c)
  | .inr (r, rest) =>
    .walked (.doc r (predsOf ops r.id) :: mergeElement ops (updatesOf ops r.id) rest)

omit [LinearOrder A] in
def new? : Step A → Option (ChangeOp A)
  | .inl c => some c
  | .inr _ => none

omit [LinearOrder A] in
def doc? : Step A → Option (Row A × List (Row A))
  | .inl _ => none
  | .inr el => some el

omit [LinearOrder A] in
/-- The element. -/
def id : Step A → OpId A
  | .inl c => c.id
  | .inr el => el.1.id

omit [LinearOrder A] in
theorem perm_ids : ∀ steps : List (Step A), (steps.map id).Perm
    ((steps.filterMap new?).map ChangeOp.id ++ (steps.filterMap doc?).map fun el => el.1.id)
  | [] => .nil
  | .inl c :: steps => (perm_ids steps).cons c.id
  | .inr el :: steps => ((perm_ids steps).cons el.1.id).trans List.perm_middle.symm

end Step

theorem untangleTo_eq (ops : List (ChangeOp A)) (n : ℕ) : ∀ (fuel : ℕ) (stack : List (ChangeOp A)),
    untangleTo ops n fuel stack =
      ((untangled ops n fuel stack).1.map fun c => .fresh (c :: followers ops c),
        (untangled ops n fuel stack).2)
  | 0, _ => rfl
  | _ + 1, [] => rfl
  | fuel + 1, c :: stack => by
    unfold untangleTo untangled
    split
    · rfl
    · rw [untangleTo_eq ops n fuel]
      rfl

theorem walkList_eq (ops : List (ChangeOp A)) : ∀ (els : List (Row A × List (Row A)))
    (stack : List (ChangeOp A)), walkList ops els stack = (weave ops els stack).map (Step.register ops)
  | [], stack => by
    unfold walkList weave
    rw [untangleTo_eq, List.map_map]
    rfl
  | (r, rest) :: els, stack => by
    unfold walkList weave
    rw [untangleTo_eq]
    dsimp only
    rw [walkList_eq ops els, List.map_append, List.map_map, List.map_cons]
    rfl

/-! ## Each insertion is passed once -/

/-- The element that an operation makes or is on. -/
def ChangeOp.element (c : ChangeOp A) : OpId A :=
  match c.elemidOrKey with
  | .seq (some e) => e
  | _ => c.id

/-- The operations of a batch on a sequence with the elements `docs`. -/
structure SeqBatch (ops : List (ChangeOp A)) (docs : List (OpId A)) : Prop where
  nodup : (docs ++ ops.map ChangeOp.id).Nodup
  sorted : ops.Pairwise fun a b => a.element < b.element ∨ a.element = b.element ∧ a.id < b.id
  key : ∀ c ∈ ops, ∃ e, c.op.key = .seq e
  update : ∀ c ∈ ops, c.insert = false → c.op.key ≠ .seq none
  element : ∀ c ∈ ops, ∀ e, c.op.key = .seq (some e) →
    e.counter < c.id.counter ∧ (e ∈ docs ∨ ∃ q ∈ ops, q.insert = true ∧ q.id = e)

/-- The elements `seen` have been passed, of the batch those in `placed`: the insertions
that name them are on the stack or placed. -/
structure Weaving (ops : List (ChangeOp A)) (docs : List (OpId A)) (seen : List (ElemId A))
    (placed stack : List (ChangeOp A)) : Prop where
  known : ∀ e ∈ seen, e = none ∨ (∃ d ∈ docs, e = some d) ∨ ∃ c ∈ placed, e = some c.id
  nodup : seen.Nodup
  passed : ∀ c ∈ placed, some c.id ∈ seen
  account : (stack ++ placed).Perm (seen.flatMap (insertsAt ops))

section

variable {ops placed stack : List (ChangeOp A)} {docs : List (OpId A)} {seen : List (ElemId A)}
  {c : ChangeOp A}

theorem mem_insertsAt_iff {e : ElemId A} :
    c ∈ insertsAt ops e ↔ c ∈ ops ∧ c.insert = true ∧ c.op.key = .seq e := by
  unfold insertsAt
  rw [List.mem_filter, Bool.and_eq_true, decide_eq_true_eq]

theorem nodup_insertsAt (hops : ops.Nodup) (hseen : seen.Nodup) :
    (seen.flatMap (insertsAt ops)).Nodup := by
  refine List.nodup_flatMap.mpr ⟨fun e _ => hops.filter _, hseen.imp fun {e e'} hne => ?_⟩
  intro c hc hc'
  have hkey := (mem_insertsAt_iff.mp hc).2.2
  rw [(mem_insertsAt_iff.mp hc').2.2] at hkey
  exact hne (Key.seq.inj hkey).symm

variable (hb : SeqBatch ops docs)

include hb

theorem SeqBatch.nodup_ops : ops.Nodup :=
  List.Nodup.of_map _ (List.nodup_append.mp hb.nodup).2.1

namespace Weaving

variable (h : Weaving ops docs seen placed stack)

include h

theorem nodup_account : (stack ++ placed).Nodup :=
  h.account.nodup_iff.mpr (nodup_insertsAt hb.nodup_ops h.nodup)

omit hb in
theorem mem_ops : ∀ c ∈ stack ++ placed, c ∈ ops ∧ c.insert = true := by
  intro c hc
  obtain ⟨e, -, hc⟩ := List.mem_flatMap.mp (h.account.subset hc)
  exact mem_insertsAt hc

/-- The stack is exhausted when all operations are placed. -/
theorem length_le : stack.length + placed.length ≤ ops.length := by
  rw [← List.length_append]
  exact (List.subperm_of_subset (h.nodup_account hb) fun c hc => (h.mem_ops c hc).1).length_le

/-- What is on the stack has not been passed. -/
theorem not_seen (hc : c ∈ stack) : some c.id ∉ seen := by
  intro hseen
  have hcops := (h.mem_ops c (List.mem_append_left placed hc)).1
  obtain ⟨-, hnd, hdisj⟩ := List.nodup_append.mp hb.nodup
  rcases h.known _ hseen with hn | ⟨d, hd, heq⟩ | ⟨q, hq, heq⟩
  · cases hn
  · cases heq
    exact hdisj c.id hd c.id (List.mem_map_of_mem hcops) rfl
  · have hqops := (h.mem_ops q (List.mem_append_right stack hq)).1
    have hcq := List.inj_on_of_nodup_map hnd hcops hqops (Option.some.inj heq)
    exact (List.nodup_append.mp (h.nodup_account hb)).2.2 c hc q hq hcq

end Weaving

/-- An insertion of the batch is passed. -/
theorem Weaving.place (h : Weaving ops docs seen placed (c :: stack)) :
    Weaving ops docs (some c.id :: seen) (c :: placed) ((insertsAt ops (some c.id)).reverse ++ stack) where
  known e he := by
    rcases List.mem_cons.mp he with rfl | he
    · exact Or.inr (Or.inr ⟨c, List.mem_cons_self, rfl⟩)
    · rcases h.known e he with hn | hd | ⟨q, hq, heq⟩
      · exact Or.inl hn
      · exact Or.inr (Or.inl hd)
      · exact Or.inr (Or.inr ⟨q, List.mem_cons_of_mem c hq, heq⟩)
  nodup := List.nodup_cons.mpr ⟨h.not_seen hb List.mem_cons_self, h.nodup⟩
  passed q hq := by
    rcases List.mem_cons.mp hq with rfl | hq
    · exact List.mem_cons_self
    · exact List.mem_cons_of_mem _ (h.passed q hq)
  account := by
    rw [List.flatMap_cons, List.append_assoc]
    exact (List.reverse_perm _).append (List.perm_middle.trans h.account)

omit hb in
/-- An element of the document is passed. -/
theorem Weaving.pass (h : Weaving ops docs seen placed stack) {d : OpId A} (hd : d ∈ docs)
    (hnew : some d ∉ seen) :
    Weaving ops docs (some d :: seen) placed ((insertsAt ops (some d)).reverse ++ stack) where
  known e he := by
    rcases List.mem_cons.mp he with rfl | he
    · exact Or.inr (Or.inl ⟨d, hd, rfl⟩)
    · exact h.known e he
  nodup := List.nodup_cons.mpr ⟨hnew, h.nodup⟩
  passed q hq := List.mem_cons_of_mem _ (h.passed q hq)
  account := by
    rw [List.flatMap_cons, List.append_assoc]
    exact (List.reverse_perm _).append h.account

omit hb in
theorem Weaving.start (ops : List (ChangeOp A)) (docs : List (OpId A)) :
    Weaving ops docs [none] [] (insertsAt ops none).reverse := by
  refine ⟨fun e he => Or.inl (List.mem_singleton.mp he), List.nodup_singleton _, List.forall_mem_nil _, ?_⟩
  rw [List.append_nil, List.flatMap_cons, List.flatMap_nil, List.append_nil]
  exact List.reverse_perm _

omit hb in
/-- The elements of the document that are to come. -/
structure Pending (docs : List (OpId A)) (seen : List (ElemId A))
    (els : List (Row A × List (Row A))) : Prop where
  fresh : ∀ el ∈ els, el.1.id ∈ docs ∧ some el.1.id ∉ seen
  nodup : (els.map fun el => el.1.id).Nodup

theorem Pending.start {els : List (Row A × List (Row A))} (hdocs : docs = els.map fun el => el.1.id) :
    Pending docs [none] els where
  fresh el hel := ⟨hdocs ▸ List.mem_map_of_mem hel, by simp⟩
  nodup := hdocs ▸ (List.nodup_append.mp hb.nodup).1

omit [LinearOrder A] hb in
theorem Pending.next {r : Row A} {rest : List (Row A)} {els : List (Row A × List (Row A))}
    {seen' : List (ElemId A)} (h : Pending docs seen ((r, rest) :: els))
    (hdocs : ∀ d ∈ docs, some d ∈ seen' → some d ∈ seen) :
    r.id ∈ docs ∧ some r.id ∉ seen' ∧ Pending docs (some r.id :: seen') els := by
  obtain ⟨hdoc, hnew⟩ := h.fresh (r, rest) List.mem_cons_self
  have hnd := h.nodup
  rw [List.map_cons, List.nodup_cons] at hnd
  refine ⟨hdoc, fun hmem => hnew (hdocs r.id hdoc hmem), fun el hel => ?_, hnd.2⟩
  obtain ⟨hd, hn⟩ := h.fresh el (List.mem_cons_of_mem _ hel)
  refine ⟨hd, fun hmem => ?_⟩
  rcases List.mem_cons.mp hmem with heq | hmem
  · exact hnd.1 (Option.some.inj heq ▸ List.mem_map_of_mem hel)
  · exact hn (hdocs _ hd hmem)

/-- Untangling passes insertions of the batch until the stack is down to `n`. -/
theorem weaving_untangled (n : ℕ) (fuel : ℕ) : ∀ {seen : List (ElemId A)}
    {placed stack : List (ChangeOp A)}, Weaving ops docs seen placed stack →
      ops.length ≤ fuel + placed.length →
      ∃ seen', Weaving ops docs seen' ((untangled ops n fuel stack).1.reverse ++ placed)
        (untangled ops n fuel stack).2 ∧ (untangled ops n fuel stack).2.length ≤ n ∧
          (∀ e ∈ seen, e ∈ seen') ∧ ∀ d ∈ docs, some d ∈ seen' → some d ∈ seen := by
  induction fuel with
  | zero =>
    intro seen placed stack h hfuel
    have hle := h.length_le hb
    have hnil : stack.length = 0 := by omega
    refine ⟨seen, h, ?_, fun _ he => he, fun _ _ hd => hd⟩
    show stack.length ≤ n
    omega
  | succ fuel ih =>
    intro seen placed stack h hfuel
    cases stack with
    | nil => exact ⟨seen, h, Nat.zero_le n, fun _ he => he, fun _ _ hd => hd⟩
    | cons c stack =>
      unfold untangled
      split
      · exact ⟨seen, h, ‹_›, fun _ he => he, fun _ _ hd => hd⟩
      · obtain ⟨seen', hw, hlen, hsub, hdocs⟩ := ih (h.place hb) (by rw [List.length_cons]; omega)
        refine ⟨seen', by simpa using hw, hlen, fun e he => hsub e (List.mem_cons_of_mem _ he),
          fun d hd hmem => ?_⟩
        rcases List.mem_cons.mp (hdocs d hd hmem) with heq | hmem
        · -- an element of the document is not in the batch
          have hc := (h.mem_ops c (List.mem_append_left placed List.mem_cons_self)).1
          exact absurd (Option.some.inj heq)
            ((List.nodup_append.mp hb.nodup).2.2 d hd c.id (List.mem_map_of_mem hc))
        · exact hmem

/-- A walk passes insertions of the batch until there are none left. -/
theorem weaving_weave : ∀ (els : List (Row A × List (Row A))) {seen : List (ElemId A)}
    {placed stack : List (ChangeOp A)}, Weaving ops docs seen placed stack → Pending docs seen els →
    ∃ seen', Weaving ops docs seen' (((weave ops els stack).filterMap Step.new?).reverse ++ placed) [] ∧
      (∀ e ∈ seen, e ∈ seen') ∧ ∀ el ∈ els, some el.1.id ∈ seen'
  | [], seen, placed, stack, h, _ => by
    obtain ⟨seen', hw, hlen, hsub, -⟩ := weaving_untangled hb 0 ops.length h (Nat.le_add_right _ _)
    rw [List.length_eq_zero_iff.mp (Nat.le_zero.mp hlen)] at hw
    refine ⟨seen', ?_, hsub, fun el hel => absurd hel List.not_mem_nil⟩
    unfold weave
    rw [List.filterMap_map]
    have hnew : (Step.new? ∘ Sum.inl : ChangeOp A → Option (ChangeOp A)) = some := rfl
    rwa [hnew, List.filterMap_some]
  | (r, rest) :: els, seen, placed, stack, h, hels => by
    obtain ⟨seen', hw, -, hsub, hdocs⟩ := weaving_untangled hb (stack.countP fun c => c.id < r.id)
      ops.length h (Nat.le_add_right _ _)
    obtain ⟨hdoc, hnew, hnext⟩ := hels.next hdocs
    obtain ⟨seen'', hw', hsub', hels'⟩ := weaving_weave els (hw.pass hdoc hnew) hnext
    refine ⟨seen'', ?_, fun e he => hsub' e (List.mem_cons_of_mem _ (hsub e he)), fun el hel => ?_⟩
    · unfold weave
      dsimp only
      have hnew : (Step.new? ∘ Sum.inl : ChangeOp A → Option (ChangeOp A)) = some := rfl
      rw [List.filterMap_append, List.filterMap_map, hnew, List.filterMap_some, List.filterMap_cons]
      show Weaving ops docs seen'' ((_ ++ List.filterMap Step.new? (weave ops els _)).reverse ++ placed) []
      rwa [List.reverse_append, List.append_assoc]
    · rcases List.mem_cons.mp hel with rfl | hel
      · exact hsub' _ List.mem_cons_self
      · exact hels' el hel

/-- **Each insertion of the batch is passed once.** -/
theorem insertions_weave {els : List (Row A × List (Row A))} (hdocs : docs = els.map fun el => el.1.id) :
    ((weave ops els (insertsAt ops none).reverse).filterMap Step.new?).Perm
      (ops.filter ChangeOp.insert) := by
  obtain ⟨seen, hw, hsub, hels⟩ := weaving_weave hb els (.start ops docs) (.start hb hdocs)
  rw [List.append_nil] at hw
  have hacc := hw.account
  rw [List.nil_append] at hacc
  have hnd := hw.nodup_account hb
  rw [List.nil_append, List.nodup_reverse] at hnd
  refine (List.perm_ext_iff_of_nodup hnd (hb.nodup_ops.filter _)).mpr fun c => ?_
  rw [List.mem_filter, ← List.mem_reverse]
  refine ⟨fun hc => hw.mem_ops c hc, ?_⟩
  -- by induction on the counter: what it names has been passed, so it has been pushed
  rintro ⟨hc, hins⟩
  induction hn : c.id.counter using Nat.strong_induction_on generalizing c with
  | _ n ih =>
    obtain ⟨e, hkey⟩ := hb.key c hc
    refine hacc.symm.subset (List.mem_flatMap.mpr ⟨e, ?_, mem_insertsAt_iff.mpr ⟨hc, hins, hkey⟩⟩)
    cases e with
    | none => exact hsub none List.mem_cons_self
    | some e =>
      obtain ⟨hlt, hd | ⟨q, hq, hqins, rfl⟩⟩ := hb.element c hc e hkey
      · rw [hdocs] at hd
        obtain ⟨el, hel, rfl⟩ := List.mem_map.mp hd
        exact hels el hel
      · exact hw.passed q (ih q.id.counter (hn ▸ hlt) q hq hqins rfl)

end

omit [LinearOrder A] in
theorem filterMap_doc_map (cs : List (ChangeOp A)) :
    (cs.map fun c => (Sum.inl c : Step A)).filterMap Step.doc? = [] := by
  rw [List.filterMap_map]
  exact List.filterMap_eq_nil_iff.mpr fun _ _ => rfl

/-- The elements of the document are passed in their order. -/
theorem docs_weave (ops : List (ChangeOp A)) : ∀ (els : List (Row A × List (Row A)))
    (stack : List (ChangeOp A)), (weave ops els stack).filterMap Step.doc? = els
  | [], stack => filterMap_doc_map _
  | (r, rest) :: els, stack => by
    unfold weave
    dsimp only
    rw [List.filterMap_append, filterMap_doc_map, List.nil_append, List.filterMap_cons]
    show (r, rest) :: _ = _
    rw [docs_weave ops els]

/-! ## Each operation gets into one register -/

section

variable {ops : List (ChangeOp A)} {docs : List (OpId A)} {c o : ChangeOp A} {e : OpId A}

omit [LinearOrder A] in
theorem takeWhile_eq_filter {B : Type} {p : B → Bool} : ∀ {l : List B},
    (l.Pairwise fun a b => p b = true → p a = true) → l.takeWhile p = l.filter p
  | [], _ => rfl
  | x :: l, h => by
    rw [List.pairwise_cons] at h
    cases hx : p x with
    | true => rw [List.takeWhile_cons_of_pos hx, List.filter_cons_of_pos hx, takeWhile_eq_filter h.2]
    | false =>
      rw [List.takeWhile_cons_of_neg (by simp [hx]), List.filter_cons_of_neg (by simp [hx])]
      refine (List.filter_eq_nil_iff.mpr fun y hy hpy => ?_).symm
      rw [h.1 y hy hpy] at hx
      cases hx

theorem mem_updatesOf : o ∈ updatesOf ops e ↔ o ∈ ops ∧ o.insert = false ∧ o.op.key = .seq (some e) := by
  unfold updatesOf
  rw [List.mem_filter, Bool.and_eq_true, Bool.not_eq_true', decide_eq_true_eq]

omit [LinearOrder A] in
theorem ChangeOp.element_insert (h : c.insert = true) : c.element = c.id := by
  have h : c.op.insert = true := h
  unfold ChangeOp.element ChangeOp.elemidOrKey
  rw [h, if_pos rfl]

omit [LinearOrder A] in
theorem ChangeOp.element_update (h : c.insert = false) (hkey : c.op.key = .seq (some e)) :
    c.element = e := by
  have h : c.op.insert = false := h
  unfold ChangeOp.element ChangeOp.elemidOrKey
  rw [h, if_neg Bool.false_ne_true, hkey]

namespace SeqBatch

variable (hb : SeqBatch ops docs)

include hb

/-- An operation that is no insertion is on an element. -/
theorem key_update (hc : c ∈ ops) (hins : c.insert = false) : c.op.key = .seq (some c.element) := by
  obtain ⟨e, hkey⟩ := hb.key c hc
  cases e with
  | none => exact absurd hkey (hb.update c hc hins)
  | some e => rw [ChangeOp.element_update hins hkey, hkey]

theorem element_lt (hc : c ∈ ops) (hins : c.insert = false) : c.element < c.id :=
  OpId.lt_of_counter (hb.element c hc _ (hb.key_update hc hins)).1

/-- The operations on a new element follow it. -/
theorem followers_eq (hc : c ∈ ops) (hins : c.insert = true) :
    followers ops c = updatesOf ops c.id := by
  obtain ⟨l, l', rfl⟩ := List.append_of_mem hc
  obtain ⟨-, hnd, -⟩ := List.nodup_append.mp hb.nodup
  rw [List.map_append, List.map_cons, List.nodup_append] at hnd
  obtain ⟨-, -, hdisj⟩ := hnd
  obtain ⟨-, hsorted, hcross⟩ := List.pairwise_append.mp hb.sorted
  rw [List.pairwise_cons] at hsorted
  have hdrop : (l ++ c :: l').dropWhile (fun o => o.id ≠ c.id) = c :: l' := by
    rw [List.dropWhile_append_of_pos fun o ho => decide_eq_true
      (hdisj o.id (List.mem_map_of_mem ho) c.id List.mem_cons_self)]
    exact List.dropWhile_cons_of_neg (by simp)
  have hbefore : l.filter (fun o => !o.insert && o.op.key = .seq (some c.id)) = [] := by
    refine List.filter_eq_nil_iff.mpr fun o ho hp => ?_
    obtain ⟨hoins, hkey⟩ := Bool.and_eq_true_iff.mp hp
    have hoins : o.insert = false := by simpa using hoins
    have hkey := of_decide_eq_true hkey
    have hlt := hb.element_lt (List.mem_append_left _ ho) hoins
    have hcross := hcross o ho c List.mem_cons_self
    rw [ChangeOp.element_insert hins, ChangeOp.element_update hoins hkey] at hcross
    rw [ChangeOp.element_update hoins hkey] at hlt
    rcases hcross with h | ⟨-, h⟩
    · exact lt_irrefl _ h
    · exact lt_asymm h hlt
  have hself : (!c.insert && c.op.key = .seq (some c.id) : Bool) = false := by
    rw [hins]
    rfl
  unfold followers updatesOf
  rw [hdrop, List.drop_one, List.tail_cons, List.filter_append, hbefore, List.nil_append,
    List.filter_cons_of_neg (by rw [hself]; exact Bool.false_ne_true)]
  refine takeWhile_eq_filter (hsorted.2.imp_of_mem fun {a b} ha hb' hab hp => ?_)
  -- what stands before an operation on the element is on it as well
  obtain ⟨hbins, hkey⟩ := Bool.and_eq_true_iff.mp hp
  have hbins : b.insert = false := by simpa using hbins
  have hbel := ChangeOp.element_update hbins (of_decide_eq_true hkey)
  have hca := hsorted.1 a ha
  rw [ChangeOp.element_insert hins] at hca
  rw [hbel] at hab
  have hael : a.element = c.id ∧ c.id < a.id := by
    rcases hca with hlt | ⟨heq, hlt⟩
    · rcases hab with h | ⟨h, -⟩
      · exact absurd h (lt_asymm hlt)
      · exact absurd h.symm hlt.ne
    · exact ⟨heq.symm, hlt⟩
  cases hains : a.insert with
  | true =>
    rw [ChangeOp.element_insert hains] at hael
    exact absurd hael.1 hael.2.ne'
  | false =>
    have hkey := hb.key_update (List.mem_append_right l (List.mem_cons_of_mem c ha)) hains
    rw [hael.1] at hkey
    rw [hkey]
    simp

/-- The operations on elements, element by element. -/
theorem updates_perm {es : List (OpId A)} (hnd : es.Nodup)
    (hes : ∀ e, e ∈ es ↔ e ∈ docs ∨ ∃ q ∈ ops, q.insert = true ∧ q.id = e) :
    (es.flatMap (updatesOf ops)).Perm (ops.filter fun o => !o.insert) := by
  have hleft : (es.flatMap (updatesOf ops)).Nodup := by
    refine List.nodup_flatMap.mpr ⟨fun e _ => hb.nodup_ops.filter _, hnd.imp fun {e e'} hne => ?_⟩
    intro o ho ho'
    have hkey := (mem_updatesOf.mp ho).2.2
    rw [(mem_updatesOf.mp ho').2.2] at hkey
    cases hkey
    exact hne rfl
  refine (List.perm_ext_iff_of_nodup hleft (hb.nodup_ops.filter _)).mpr fun o => ?_
  rw [List.mem_filter, List.mem_flatMap, Bool.not_eq_true']
  constructor
  · rintro ⟨e, -, ho⟩
    exact ⟨(mem_updatesOf.mp ho).1, (mem_updatesOf.mp ho).2.1⟩
  · rintro ⟨ho, hins⟩
    have hkey := hb.key_update ho hins
    exact ⟨o.element, (hes _).mpr (hb.element o ho _ hkey).2, mem_updatesOf.mpr ⟨ho, hins, hkey⟩⟩

omit hb in
theorem changes_mergeElement (ops : List (ChangeOp A)) : ∀ (updates : List (ChangeOp A))
    (rows : List (Row A)), (mergeElement ops updates rows).filterMap Entry.change? = updates
  | updates, [] => by
    unfold mergeElement
    rw [List.filterMap_map]
    exact List.filterMap_some
  | updates, r :: rows => by
    have hchange : (Entry.change? ∘ Entry.change : ChangeOp A → Option (ChangeOp A)) = some := rfl
    unfold mergeElement
    rw [List.filterMap_append, List.filterMap_map, hchange, List.filterMap_some, List.filterMap_cons]
    show _ ++ List.filterMap Entry.change? (mergeElement ops _ rows) = _
    rw [changes_mergeElement ops, List.takeWhile_append_dropWhile]

omit hb in
/-- The operations of the batch in the register of an element. -/
theorem changes_register (step : Step A) (hstep : ∀ c ∈ step.new?, followers ops c = updatesOf ops c.id) :
    (step.register ops).changes = step.new?.toList ++ updatesOf ops step.id := by
  cases step with
  | inl c => exact congrArg (c :: ·) (hstep c rfl)
  | inr el =>
    unfold Step.register
    rw [Register.changes_walked, List.filterMap_cons]
    exact changes_mergeElement ops _ _

/-- **Each operation of the batch gets into one register.** -/
theorem changes_walkList {els : List (Row A × List (Row A))} (hdocs : docs = els.map fun el => el.1.id) :
    ((walkList ops els (insertsAt ops none).reverse).flatMap Register.changes).Perm ops := by
  have hins := insertions_weave hb hdocs
  have hdoc := docs_weave ops els (insertsAt ops none).reverse
  rw [walkList_eq, List.flatMap_map]
  generalize weave ops els (insertsAt ops none).reverse = steps at hins hdoc
  have hnew : ∀ c, c ∈ steps.filterMap Step.new? ↔ c ∈ ops ∧ c.insert = true := fun c => by
    rw [hins.mem_iff, List.mem_filter]
  have hregs : steps.flatMap (fun step => (step.register ops).changes) =
      steps.flatMap fun step => step.new?.toList ++ updatesOf ops step.id := by
    refine List.flatMap_congr fun step hstep => changes_register step fun c hc => ?_
    obtain ⟨hcops, hcins⟩ := (hnew c).mp (List.mem_filterMap.mpr ⟨step, hstep, hc⟩)
    exact hb.followers_eq hcops hcins
  have hids := Step.perm_ids steps
  rw [hdoc, ← hdocs] at hids
  have hnd : (steps.map Step.id).Nodup := by
    refine hids.nodup_iff.mpr (List.nodup_append_comm.mp ?_)
    exact ((hins.map ChangeOp.id).append_left docs).nodup_iff.mpr
      (hb.nodup.sublist ((List.filter_sublist.map _).append_left docs))
  rw [hregs]
  refine (List.flatMap_append_perm steps _ _).symm.trans ?_
  refine List.Perm.trans ?_ (List.filter_append_perm ChangeOp.insert ops)
  refine List.Perm.append ?_ ?_
  · rw [← List.filterMap_eq_flatMap_toList]
    exact hins
  · rw [← List.flatMap_map]
    refine hb.updates_perm hnd fun e => ?_
    rw [hids.mem_iff, List.mem_append, or_comm, List.mem_map]
    refine or_congr_right (exists_congr fun q => ?_)
    rw [hnew, and_assoc]

end SeqBatch

end

end AutomergeR
