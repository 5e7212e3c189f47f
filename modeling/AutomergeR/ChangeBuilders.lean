import Mathlib.Data.Prod.Lex
import AutomergeR.ChangeEncoders
import AutomergeR.Search.Binary

/-! # The builders of the changes

`op_set2/change/collector.rs`: the collector has a builder for every change, sorted by actor and
sequence number, and an operation goes to the builder that a binary search finds by actor and
counter. Where the counters of each actor's changes are apart and in the order of the sequence
numbers, it finds the builder of the change, whose encoder has room for the operation. So every
change is built again of what a document saves (`builders_of_replica`).
-/

namespace AutomergeR

open Automerge Causal

variable {H A : Type}

/-- `DocChangeMetadata`: what a saved document has of a change. -/
structure DocChangeMetadata (A : Type) where
  actor : A
  seq : ℕ
  maxOp : ℕ
  /-- the positions of the dependencies -/
  deps : List ℕ

structure BuildChangeMetadata (A : Type) extends DocChangeMetadata A where
  startOp : ℕ

def BuildChangeMetadata.numOps (m : BuildChangeMetadata A) : ℕ := 1 + m.maxOp - m.startOp

structure ChangeBuilder (A : Type) where
  actor : A
  seq : ℕ
  /-- the position of the change -/
  change : ℕ
  startOp : ℕ
  encoder : OpEncoderStrategy A

namespace ChangeBuilder

def new (vecEncoderMax : ℕ) (m : BuildChangeMetadata A) (index : ℕ) : ChangeBuilder A :=
  ⟨m.actor, m.seq, index, m.startOp, .new vecEncoderMax m.numOps⟩

def maxOp (b : ChangeBuilder A) : ℕ := b.startOp + b.encoder.numOps - 1

def add (b : ChangeBuilder A) (p : OpId A × Op A) : Option (ChangeBuilder A) :=
  (b.encoder.add (p.1.counter - b.startOp, p)).map fun e => { b with encoder := e }

variable [LinearOrder A]

/-- What the builders are sorted by. -/
def sortKey (b : ChangeBuilder A) : A ×ₗ ℕ := toLex (b.actor, b.seq)

/-- How a builder compares with an id, in `builders_index`. -/
def order (b : ChangeBuilder A) (id : OpId A) : Ordering :=
  (compare b.actor id.actor).then
    (if id.counter < b.startOp then .gt else if b.maxOp < id.counter then .lt else .eq)

end ChangeBuilder

namespace ChangeCollector

variable [LinearOrder A]

/-- `ChangeCollector::new`: a change starts behind the greatest operation of its dependencies. -/
def newChanges (changes : List (DocChangeMetadata A)) :
    Except CollectError (List (BuildChangeMetadata A)) :=
  changes.mapM fun m =>
    match m.deps.mapM fun i => changes[i]?.map DocChangeMetadata.maxOp with
    | some maxOps =>
      let startOp := maxOps.foldr max 0 + 1
      if m.maxOp + 1 < startOp then .error .invalidMaxOp else .ok ⟨m, startOp⟩
    | none => .error .panicked

/-- The builders of `from_change_meta`. -/
def fromChangeMeta (vecEncoderMax : ℕ) (changes : List (BuildChangeMetadata A)) :
    List (ChangeBuilder A) :=
  (changes.zipIdx.map fun x => .new vecEncoderMax x.1 x.2).insertionSort
    fun a b => a.sortKey ≤ b.sortKey

def buildersIndex (builders : List (ChangeBuilder A)) (id : OpId A) : Option ℕ :=
  Search.binarySearchBy (fun b => b.order id) builders

/-- `add`. What no builder takes is dropped; `None` is a panic. -/
def addOp (builders : List (ChangeBuilder A)) (p : OpId A × Op A) :
    Option (List (ChangeBuilder A)) :=
  match buildersIndex builders p.1 with
  | some index => do
    let b ← builders[index]?
    let b ← b.add p
    return builders.set index b
  | none => some builders

/-- The builders when everything is added. -/
def fill (vecEncoderMax : ℕ) (changes : List (BuildChangeMetadata A)) (added : List (OpId A × Op A)) :
    Option (List (ChangeBuilder A)) :=
  added.foldlM addOp (fromChangeMeta vecEncoderMax changes)

omit [LinearOrder A] in
/-- `finish` of the builder of a change: `change.builder` is where `from_change_meta` has put
the builder that was made for it. -/
def finishBuilder (builders : List (ChangeBuilder A)) (m : BuildChangeMetadata A) (index : ℕ) :
    Except CollectError (ℕ × List (OpId A × Op A)) :=
  match builders.find? fun b => b.change = index with
  | some b => b.encoder.finish m.maxOp
  | none => .error .panicked

end ChangeCollector

/-! ## The search -/

namespace ChangeBuilder

section

variable [LinearOrder A] {b : ChangeBuilder A} {bs : List (ChangeBuilder A)} {id : OpId A}

theorem order_of_actor_lt (h : b.actor < id.actor) : b.order id = .lt := by
  unfold order
  rw [compare_lt_iff_lt.mpr h]
  rfl

theorem order_of_lt_actor (h : id.actor < b.actor) : b.order id = .gt := by
  unfold order
  rw [compare_gt_iff_gt.mpr h]
  rfl

theorem order_of_actor_eq (h : b.actor = id.actor) : b.order id =
    if id.counter < b.startOp then .gt else if b.maxOp < id.counter then .lt else .eq := by
  unfold order
  rw [compare_eq_iff_eq.mpr h]
  rfl

/-- The ids that a builder takes. -/
theorem order_eq_iff :
    b.order id = .eq ↔ id.actor = b.actor ∧ b.startOp ≤ id.counter ∧ id.counter ≤ b.maxOp := by
  rcases lt_trichotomy b.actor id.actor with h | h | h
  · simp [order_of_actor_lt h, h.ne']
  · rw [order_of_actor_eq h]
    split
    · rename_i hlt
      simp [not_le_of_gt hlt]
    · rename_i hle
      split
      · rename_i hlt
        simp [not_le_of_gt hlt]
      · rename_i hle'
        simp [h, Nat.not_lt.mp hle, Nat.not_lt.mp hle']
  · simp [order_of_lt_actor h, h.ne]

/-- The builders of an actor are apart, and in the order of their counters. -/
def Ordered (bs : List (ChangeBuilder A)) : Prop :=
  bs.Pairwise fun x y => x.actor < y.actor ∨ x.actor = y.actor ∧ x.maxOp < y.startOp

theorem Ordered.cut (h : Ordered bs) (id : OpId A) : Search.Cut (fun b => b.order id) bs := by
  refine List.Pairwise.imp (fun {x y} hxy => ?_) h
  show x.order id = .lt ∨ y.order id = .gt
  rcases lt_trichotomy x.actor id.actor with hx | hx | hx
  · exact Or.inl (order_of_actor_lt hx)
  · rcases hxy with hlt | ⟨heq, hlt⟩
    · exact Or.inr (order_of_lt_actor (hx ▸ hlt))
    · rw [order_of_actor_eq hx, order_of_actor_eq (heq ▸ hx)]
      have hmax : x.startOp ≤ x.maxOp + 1 := by
        unfold maxOp
        omega
      -- what is not before the later one is behind the earlier one
      by_cases hid : id.counter < y.startOp
      · exact Or.inr (if_pos hid)
      · left
        rw [if_neg (by omega), if_pos (by omega)]
  · exact Or.inr (order_of_lt_actor (hxy.elim (fun hlt => hx.trans hlt) fun heq => heq.1 ▸ hx))

theorem buildersIndex_eq_some_iff (h : Ordered bs) {i : ℕ} :
    ChangeCollector.buildersIndex bs id = some i ↔ ∃ b, bs[i]? = some b ∧ b.order id = .eq :=
  Search.binarySearchBy_eq_some_iff (h.cut id)

end

/-! ## What is added to a builder -/

section

variable [LinearOrder A] {b : ChangeBuilder A} {bs : List (ChangeBuilder A)} {n : ℕ}
  {added : List (OpId A × Op A)} {p : OpId A × Op A}

/-- What is added to the encoder, by the indices. -/
def indexed (b : ChangeBuilder A) (added : List (OpId A × Op A)) : List (ℕ × (OpId A × Op A)) :=
  (added.filter fun p => b.order p.1 = .eq).map fun p => (p.1.counter - b.startOp, p)

/-- The builder with what it has taken. -/
def filled (b : ChangeBuilder A) (added : List (OpId A × Op A)) : ChangeBuilder A :=
  { b with encoder := (b.indexed added).foldl OpEncoderStrategy.put b.encoder }

theorem maxOp_filled : (b.filled added).maxOp = b.maxOp := by
  unfold maxOp filled
  rw [OpEncoderStrategy.numOps_foldl_put]

theorem order_filled (id : OpId A) : (b.filled added).order id = b.order id := by
  unfold order
  rw [maxOp_filled]
  rfl

theorem Ordered.filled (h : Ordered bs) (added : List (OpId A × Op A)) :
    Ordered (bs.map fun b => b.filled added) := by
  refine List.pairwise_map.mpr (List.Pairwise.imp (fun {x y} hxy => ?_) h)
  rw [maxOp_filled]
  exact hxy

theorem indexed_snoc_of_ne (h : b.order p.1 ≠ .eq) : b.indexed (added ++ [p]) = b.indexed added := by
  unfold indexed
  rw [List.filter_append, List.filter_singleton, decide_eq_false h]
  simp

theorem indexed_snoc_of_eq (h : b.order p.1 = .eq) :
    b.indexed (added ++ [p]) = b.indexed added ++ [(p.1.counter - b.startOp, p)] := by
  unfold indexed
  rw [List.filter_append, List.filter_singleton, decide_eq_true h, List.map_append]
  rfl

/-- The indices are different. -/
theorem nodup_indexed (hnd : (added.map Prod.fst).Nodup) :
    ((b.indexed added).map Prod.fst).Nodup := by
  unfold indexed
  rw [List.map_map]
  refine List.Nodup.map_on (fun p hp q hq heq => ?_) (hnd.of_map.filter _)
  obtain ⟨hp, htp⟩ := List.mem_filter.mp hp
  obtain ⟨hq, htq⟩ := List.mem_filter.mp hq
  obtain ⟨hact, hlow, -⟩ := order_eq_iff.mp (of_decide_eq_true htp)
  obtain ⟨hact', hlow', -⟩ := order_eq_iff.mp (of_decide_eq_true htq)
  have heq : p.1.counter - b.startOp = q.1.counter - b.startOp := heq
  exact List.inj_on_of_nodup_map hnd hp hq (OpId.ext (by omega) (hact.trans hact'.symm))

/-- A builder with nothing in it, for some operations. -/
def Empty (n : ℕ) (b : ChangeBuilder A) : Prop := ∃ num, 0 < num ∧ b.encoder = .new n num

/-- **A builder has room for what it takes.** -/
theorem Empty.add_filled (h : b.Empty n) (hp : b.order p.1 = .eq)
    (hnd : ((added ++ [p]).map Prod.fst).Nodup) :
    (b.filled added).add p = some (b.filled (added ++ [p])) := by
  obtain ⟨num, hpos, hencoder⟩ := h
  obtain ⟨-, hlow, hhigh⟩ := order_eq_iff.mp hp
  have hlt : p.1.counter - b.startOp < num := by
    unfold maxOp at hhigh
    rw [hencoder, OpEncoderStrategy.numOps_new] at hhigh
    omega
  have hnew : p.1.counter - b.startOp ∉ (b.indexed added).map Prod.fst := by
    have hnd := nodup_indexed (b := b) hnd
    rw [indexed_snoc_of_eq hp, List.map_append, List.nodup_append] at hnd
    exact fun hmem => hnd.2.2 _ hmem _ List.mem_cons_self rfl
  have hadd : ((b.indexed added).foldl OpEncoderStrategy.put b.encoder).add
      (p.1.counter - b.startOp, p) =
        some ((b.indexed (added ++ [p])).foldl OpEncoderStrategy.put b.encoder) := by
    rw [hencoder, indexed_snoc_of_eq hp]
    exact OpEncoderStrategy.add_foldl_put hlt hnew
  show (((b.indexed added).foldl OpEncoderStrategy.put b.encoder).add
    (p.1.counter - b.startOp, p)).map _ = _
  rw [hadd]
  rfl

/-- An operation goes to the builder that takes it, and to no other. -/
theorem addOp_filled (hord : Ordered bs) (hempty : ∀ b ∈ bs, b.Empty n)
    (hnd : ((added ++ [p]).map Prod.fst).Nodup) :
    ChangeCollector.addOp (bs.map fun b => b.filled added) p =
      some (bs.map fun b => b.filled (added ++ [p])) := by
  have hsearch : ∀ {i : ℕ}, ChangeCollector.buildersIndex (bs.map fun b => b.filled added) p.1 = some i ↔
      ∃ b, bs[i]? = some b ∧ b.order p.1 = .eq := by
    intro i
    rw [buildersIndex_eq_some_iff (hord.filled added), List.getElem?_map]
    constructor
    · rintro ⟨_, hmap, heq⟩
      obtain ⟨b, hb, rfl⟩ := Option.map_eq_some_iff.mp hmap
      exact ⟨b, hb, (order_filled p.1).symm.trans heq⟩
    · rintro ⟨b, hb, heq⟩
      exact ⟨b.filled added, by rw [hb, Option.map_some], (order_filled p.1).trans heq⟩
  have hother : ∀ b : ChangeBuilder A, b.order p.1 ≠ .eq → b.filled (added ++ [p]) = b.filled added := by
    intro b hb
    unfold filled
    rw [indexed_snoc_of_ne hb]
  unfold ChangeCollector.addOp
  cases hindex : ChangeCollector.buildersIndex (bs.map fun b => b.filled added) p.1 with
  | none =>
    refine congrArg some (List.map_congr_left fun b hb => (hother b fun heq => ?_).symm)
    obtain ⟨i, hi⟩ := List.getElem?_of_mem hb
    rw [hsearch.mpr ⟨b, hi, heq⟩] at hindex
    cases hindex
  | some i =>
    obtain ⟨b, hb, heq⟩ := hsearch.mp hindex
    have hadd := (hempty b (List.mem_of_getElem? hb)).add_filled heq hnd
    have hset : (bs.map fun b => b.filled added).set i (b.filled (added ++ [p])) =
        bs.map fun b => b.filled (added ++ [p]) := by
      refine List.ext_getElem? fun j => ?_
      rw [List.getElem?_set, List.getElem?_map, List.getElem?_map, List.length_map]
      split
      · rename_i hij
        subst hij
        rw [if_pos (List.getElem?_eq_some_iff.mp hb).1, hb]
        rfl
      · rename_i hij
        cases hc : bs[j]? with
        | none => rfl
        | some c =>
          refine congrArg some (hother c fun heq' => hij ?_).symm
          exact Option.some.inj (hindex.symm.trans (hsearch.mpr ⟨c, hc, heq'⟩))
    dsimp only
    rw [List.getElem?_map, hb]
    show ((b.filled added).add p).bind _ = _
    rw [hadd, ← hset]
    rfl

/-- **Every operation goes to its builder**, and no assertion fails. -/
theorem foldlM_addOp (hord : Ordered bs) (hempty : ∀ b ∈ bs, b.Empty n) :
    (added.map Prod.fst).Nodup →
      added.foldlM ChangeCollector.addOp bs = some (bs.map fun b => b.filled added) := by
  induction added using List.reverseRecOn with
  | nil =>
    intro _
    exact congrArg some (List.map_id bs).symm
  | append_singleton added p ih =>
    intro hnd
    have hfront : (added.map Prod.fst).Nodup := by
      rw [List.map_append] at hnd
      exact hnd.of_append_left
    rw [List.foldlM_append, ih hfront]
    show [p].foldlM ChangeCollector.addOp (bs.map fun b => b.filled added) = _
    rw [List.foldlM_cons, addOp_filled hord hempty hnd]
    rfl

end

end ChangeBuilder

/-! ## The builders of changes that are apart -/

namespace ChangeCollector

/-- The counters of each actor's changes are apart, in the order of the sequence numbers. -/
structure Apart (changes : List (BuildChangeMetadata A)) : Prop where
  nonempty : ∀ m ∈ changes, m.startOp ≤ m.maxOp
  pairwise : changes.Pairwise fun m m' => m.actor = m'.actor →
    m.seq < m'.seq ∧ m.maxOp < m'.startOp ∨ m'.seq < m.seq ∧ m'.maxOp < m.startOp

variable [LinearOrder A] {changes : List (BuildChangeMetadata A)} {added : List (OpId A × Op A)}
  {n : ℕ}

theorem perm_fromChangeMeta : (fromChangeMeta n changes).Perm
    (changes.zipIdx.map fun x => ChangeBuilder.new n x.1 x.2) :=
  List.perm_insertionSort _ _

theorem mem_fromChangeMeta {b : ChangeBuilder A} : b ∈ fromChangeMeta n changes ↔
    ∃ m i, changes[i]? = some m ∧ .new n m i = b := by
  rw [perm_fromChangeMeta.mem_iff, List.mem_map]
  constructor
  · rintro ⟨x, hx, rfl⟩
    exact ⟨x.1, x.2, List.mem_zipIdx_iff_getElem?.mp hx, rfl⟩
  · rintro ⟨m, i, hm, rfl⟩
    exact ⟨(m, i), List.mem_zipIdx_iff_getElem?.mpr hm, rfl⟩

omit [LinearOrder A] in
theorem maxOp_new {m : BuildChangeMetadata A} (h : m.startOp ≤ m.maxOp) (i : ℕ) :
    (ChangeBuilder.new n m i).maxOp = m.maxOp := by
  have hnum : (ChangeBuilder.new n m i).encoder.numOps = 1 + m.maxOp - m.startOp :=
    OpEncoderStrategy.numOps_new _
  unfold ChangeBuilder.maxOp
  rw [hnum]
  show m.startOp + (1 + m.maxOp - m.startOp) - 1 = m.maxOp
  omega

namespace Apart

variable (h : Apart changes)

include h

theorem empty : ∀ b ∈ fromChangeMeta n changes, b.Empty n := by
  intro b hb
  obtain ⟨m, i, hm, rfl⟩ := mem_fromChangeMeta.mp hb
  have hle := h.nonempty m (List.mem_of_getElem? hm)
  refine ⟨m.numOps, ?_, rfl⟩
  unfold BuildChangeMetadata.numOps
  omega

theorem ordered : ChangeBuilder.Ordered (fromChangeMeta n changes) := by
  have hapart : (fromChangeMeta n changes).Pairwise fun x y => x.actor = y.actor →
      x.seq < y.seq ∧ x.maxOp < y.startOp ∨ y.seq < x.seq ∧ y.maxOp < x.startOp := by
    refine (perm_fromChangeMeta.pairwise_iff fun {x y} hxy heq => (hxy heq.symm).symm).mpr ?_
    refine List.pairwise_map.mpr (List.Pairwise.imp_of_mem (fun {x y} hx hy hxy => ?_)
      (List.pairwise_map.mp (by rw [List.zipIdx_map_fst]; exact h.pairwise)))
    have hmem : ∀ x ∈ changes.zipIdx, x.1 ∈ changes := fun x hx =>
      List.mem_of_getElem? (List.mem_zipIdx_iff_getElem?.mp hx)
    rw [maxOp_new (h.nonempty _ (hmem x hx)), maxOp_new (h.nonempty _ (hmem y hy))]
    exact hxy
  have htotal : Std.Total fun a b : ChangeBuilder A => a.sortKey ≤ b.sortKey :=
    ⟨fun a b => le_total a.sortKey b.sortKey⟩
  have htrans : IsTrans (ChangeBuilder A) fun a b => a.sortKey ≤ b.sortKey :=
    ⟨fun _ _ _ hab hbc => le_trans hab hbc⟩
  have hsorted : (fromChangeMeta n changes).Pairwise fun a b => a.sortKey ≤ b.sortKey :=
    List.pairwise_insertionSort _ _
  refine List.Pairwise.imp (fun {x y} hxy => ?_) (hsorted.and hapart)
  obtain ⟨hkey, hxy⟩ := hxy
  rcases Prod.Lex.le_iff.mp hkey with hlt | ⟨heq, hle⟩
  · exact Or.inl hlt
  · exact Or.inr ⟨heq, (hxy heq).elim And.right fun hseq => absurd hle (not_le_of_gt hseq.1)⟩

/-- **The builders are filled.** -/
theorem fill_eq (hnd : (added.map Prod.fst).Nodup) :
    fill n changes added = some ((fromChangeMeta n changes).map fun b => b.filled added) :=
  ChangeBuilder.foldlM_addOp h.ordered h.empty hnd

omit h in
/-- Each change has its own builder. -/
theorem finishBuilder_filled {m : BuildChangeMetadata A} {i : ℕ} (hm : changes[i]? = some m) :
    finishBuilder ((fromChangeMeta n changes).map fun b => b.filled added) m i =
      ((ChangeBuilder.new n m i).filled added).encoder.finish m.maxOp := by
  have hmem : (ChangeBuilder.new n m i).filled added ∈
      (fromChangeMeta n changes).map fun b => b.filled added :=
    List.mem_map_of_mem (mem_fromChangeMeta.mpr ⟨m, i, hm, rfl⟩)
  unfold finishBuilder
  cases hfind : ((fromChangeMeta n changes).map fun b => b.filled added).find?
      fun b => b.change = i with
  | none => exact absurd (decide_eq_true rfl) (List.find?_eq_none.mp hfind _ hmem)
  | some b =>
    obtain ⟨b', hb', rfl⟩ := List.mem_map.mp (List.mem_of_find?_eq_some hfind)
    obtain ⟨m', j, hm', rfl⟩ := mem_fromChangeMeta.mp hb'
    have hchange := List.find?_some hfind
    obtain rfl : j = i := of_decide_eq_true hchange
    rw [hm] at hm'
    cases hm'
    rfl

end Apart

end ChangeCollector

/-! ## The changes of a document -/

theorem mapM_map_eq_pure {M : Type → Type} [Monad M] [LawfulMonad M] {B C D : Type} {f : C → M D}
    {g : B → C} {k : B → D} :
    ∀ {l : List B}, (∀ x ∈ l, f (g x) = pure (k x)) → (l.map g).mapM f = pure (l.map k)
  | [], _ => List.mapM_nil
  | x :: l, h => by
    rw [List.map_cons, List.mapM_cons, h x List.mem_cons_self, pure_bind,
      mapM_map_eq_pure fun y hy => h y (List.mem_cons_of_mem x hy), pure_bind]
    rfl

theorem le_foldr_max {l : List ℕ} {x : ℕ} (hx : x ∈ l) : x ≤ l.foldr max 0 := by
  induction l with
  | nil => cases hx
  | cons y l ih =>
    rcases List.mem_cons.mp hx with rfl | hx
    · exact le_max_left _ _
    · exact (ih hx).trans (le_max_right _ _)

theorem foldr_max_lt {l : List ℕ} {n : ℕ} (hn : 0 < n) (h : ∀ x ∈ l, x < n) : l.foldr max 0 < n := by
  induction l with
  | nil => exact hn
  | cons y l ih =>
    exact max_lt (h y List.mem_cons_self) (ih fun x hx => h x (List.mem_cons_of_mem y hx))

section

variable [DecidableEq H] [ChangeHash H A (Op A)]

/-- What is saved of a change. -/
def Change.metadata (changes : List (Change H A (Op A))) (c : Change H A (Op A)) :
    DocChangeMetadata A :=
  ⟨c.actor, c.seq, c.maxOp, c.deps.map fun h => (changes.map Change.hash).idxOf h⟩

/-- Metadata to build changes of a document with. -/
def metadataOf (changes : List (Change H A (Op A))) (start : Change H A (Op A) → ℕ)
    (cs : List (Change H A (Op A))) : List (BuildChangeMetadata A) :=
  cs.map fun c => ⟨c.metadata changes, start c⟩

/-- The start that `ChangeCollector::new` finds for a change. -/
def depStart (changes : List (Change H A (Op A))) (c : Change H A (Op A)) : ℕ :=
  (c.deps.map fun h => (changes[(changes.map Change.hash).idxOf h]?.map Change.maxOp).getD 0).foldr
    max 0 + 1

variable {changes cs : List (Change H A (Op A))} {c d : Change H A (Op A)}

theorem getElem?_idxOf_hash {h : H} :
    changes[(changes.map Change.hash).idxOf h]? = some d ↔ d ∈ changes ∧ d.hash = h := by
  constructor
  · intro heq
    have hhash : (changes.map Change.hash)[(changes.map Change.hash).idxOf h]? = some d.hash := by
      rw [List.getElem?_map, heq]
      rfl
    obtain ⟨hlt, hget⟩ := List.getElem?_eq_some_iff.mp hhash
    rw [List.getElem_idxOf hlt] at hget
    exact ⟨List.mem_of_getElem? heq, hget.symm⟩
  · rintro ⟨hd, rfl⟩
    have hget := List.getElem?_idxOf (List.mem_map_of_mem hd : d.hash ∈ changes.map Change.hash)
    rw [List.getElem?_map, Option.map_eq_some_iff] at hget
    obtain ⟨e, he, hhash⟩ := hget
    rw [he, Change.hash_inj hhash]

theorem lt_depStart (hd : d ∈ changes) (hdc : d.hash ∈ c.deps) : d.maxOp < depStart changes c := by
  refine Nat.lt_succ_of_le (le_foldr_max (List.mem_map.mpr ⟨d.hash, hdc, ?_⟩))
  rw [getElem?_idxOf_hash.mpr ⟨hd, rfl⟩]
  rfl

/-- Every dependency has its position, and none ends behind the change. -/
theorem newChanges_metadata (hdeps : ∀ c ∈ changes, ∀ x ∈ c.deps, x ∈ hashesOf changes)
    (hstart : ∀ c ∈ changes, depStart changes c ≤ c.maxOp + 1) :
    ChangeCollector.newChanges (changes.map fun c => c.metadata changes) =
      .ok (metadataOf changes (depStart changes) changes) := by
  refine mapM_map_eq_pure fun c hc => ?_
  have hmax : (c.metadata changes).deps.mapM (fun i =>
      (changes.map fun d => d.metadata changes)[i]?.map DocChangeMetadata.maxOp) =
        some (c.deps.map fun h =>
          (changes[(changes.map Change.hash).idxOf h]?.map Change.maxOp).getD 0) := by
    refine mapM_map_eq_pure fun x hx => ?_
    obtain ⟨d, hd, rfl⟩ := hdeps c hc x hx
    rw [List.getElem?_map, getElem?_idxOf_hash.mpr ⟨hd, rfl⟩]
    rfl
  rw [hmax]
  exact if_neg (Nat.not_lt.mpr (hstart c hc))

variable [LinearOrder A] {n : ℕ}

/-- Where the builders of changes begin: not behind their change, but behind all that it was made
on top of. -/
structure Begins (changes cs : List (Change H A (Op A))) (start : Change H A (Op A) → ℕ) : Prop where
  nodup : cs.Nodup
  subset : ∀ c ∈ cs, c ∈ changes
  le : ∀ c ∈ cs, start c ≤ c.startOp
  after : ∀ c ∈ cs, ∀ d : Change H A (Op A), d.hash ∈ Past (Dep A (Op A)) {x | x ∈ c.deps} →
    d.maxOp < start c

omit [DecidableEq H] in
/-- A change in the past of another ends no later. -/
theorem Change.Grounded.maxOp_le (hd : d.Grounded) (h : c.hash ∈ Past (Dep A (Op A)) {d.hash}) :
    c.maxOp ≤ d.maxOp := by
  rw [past_change] at h
  rcases h with heq | h
  · rw [Change.hash_inj heq]
  · have hlt := hd.after c h
    have hlen := List.length_pos_iff.mpr hd.nonempty
    unfold Change.maxOp at hlt ⊢
    omega

namespace History

variable (h : History (hashesOf changes) A)

include h

theorem begins_depStart (hnd : changes.Nodup) : Begins changes changes (depStart changes) where
  nodup := hnd
  subset _ hc := hc
  le c hc := by
    have hgrounded := h.grounded c (mem_hashesOf.mpr hc)
    refine foldr_max_lt hgrounded.pos fun x hx => ?_
    obtain ⟨y, hy, rfl⟩ := List.mem_map.mp hx
    obtain ⟨d, hd, rfl⟩ : y ∈ hashesOf changes := h.closed (dep_hash.mpr hy) (mem_hashesOf.mpr hc)
    rw [getElem?_idxOf_hash.mpr ⟨hd, rfl⟩]
    exact hgrounded.after d (subset_past _ hy)
  after := by
    rintro c hc d ⟨y, hy, hanc⟩
    obtain ⟨e, he, rfl⟩ : y ∈ hashesOf changes := h.closed (dep_hash.mpr hy) (mem_hashesOf.mpr hc)
    exact ((h.grounded e (mem_hashesOf.mpr he)).maxOp_le ⟨e.hash, rfl, hanc⟩).trans_lt
      (lt_depStart he hy)

/-- `ChangeCollector::new` raises nothing. -/
theorem newChanges_eq (hnd : changes.Nodup) :
    ChangeCollector.newChanges (changes.map fun c => c.metadata changes) =
      .ok (metadataOf changes (depStart changes) changes) := by
  refine newChanges_metadata (fun c hc x hx => ?_) fun c hc => ?_
  · exact h.closed (dep_hash.mpr hx) (mem_hashesOf.mpr hc)
  · have hle := (h.begins_depStart hnd).le c hc
    unfold Change.maxOp
    omega

end History

omit [DecidableEq H] [ChangeHash H A (Op A)] in
/-- A builder that takes the operations of a change ends with them. -/
theorem Change.finish_filled {added : List (OpId A × Op A)} {m : BuildChangeMetadata A} {i : ℕ}
    (hne : c.ops ≠ []) (hpos : 0 < c.startOp) (hstart : m.startOp ≤ c.startOp) (hmax : m.maxOp = c.maxOp)
    (hnd : (added.map Prod.fst).Nodup)
    (h : ∀ p, p ∈ added ∧ (ChangeBuilder.new n m i).order p.1 = .eq ↔ p ∈ c.identified) :
    ((ChangeBuilder.new n m i).filled added).encoder.finish m.maxOp = .ok (c.startOp, c.identified) := by
  have hlen : c.identified.length = c.ops.length := by
    unfold Change.identified issued
    rw [List.length_map, List.length_zipIdx]
  have hget : ∀ (j : ℕ) (p : OpId A × Op A), c.identified[j]? = some p → p.1.counter = c.startOp + j := by
    intro j p hj
    unfold Change.identified issued at hj
    rw [List.getElem?_map, List.getElem?_zipIdx, Nat.zero_add, Option.map_map] at hj
    obtain ⟨op, -, rfl⟩ := Option.map_eq_some_iff.mp hj
    rfl
  have hpos' := List.length_pos_iff.mpr hne
  have hnum : m.numOps = c.startOp - m.startOp + c.identified.length := by
    unfold BuildChangeMetadata.numOps
    rw [hmax, hlen]
    unfold Change.maxOp
    omega
  have hmem : ∀ x, x ∈ (ChangeBuilder.new n m i).indexed added ↔
      ∃ j, c.identified[j]? = some x.2 ∧ x.1 = c.startOp - m.startOp + j := by
    intro x
    unfold ChangeBuilder.indexed
    rw [List.mem_map]
    constructor
    · rintro ⟨p, hp, rfl⟩
      obtain ⟨hp, htakes⟩ := List.mem_filter.mp hp
      obtain ⟨j, hj⟩ := List.getElem?_of_mem ((h p).mp ⟨hp, of_decide_eq_true htakes⟩)
      refine ⟨j, hj, ?_⟩
      have hctr := hget j p hj
      show p.1.counter - m.startOp = _
      omega
    · rintro ⟨j, hj, hx⟩
      obtain ⟨hp, htakes⟩ := (h x.2).mpr (List.mem_of_getElem? hj)
      refine ⟨x.2, List.mem_filter.mpr ⟨hp, decide_eq_true htakes⟩, Prod.ext ?_ rfl⟩
      have hctr := hget j x.2 hj
      show x.2.1.counter - m.startOp = x.1
      omega
  have hlast : ∀ last ∈ c.identified.getLast?, last.1.counter = m.maxOp := by
    intro last hl
    rw [Option.mem_def, List.getLast?_eq_getElem?] at hl
    rw [hget _ last hl, hmax, hlen]
    unfold Change.maxOp
    omega
  have hidentified : c.identified ≠ [] := fun hnil => by
    rw [hnil] at hlen
    exact hne (List.length_eq_zero_iff.mp hlen.symm)
  have hencoder : (ChangeBuilder.new n m i).encoder =
      .new n (c.startOp - m.startOp + c.identified.length) :=
    congrArg (OpEncoderStrategy.new n) hnum
  show (((ChangeBuilder.new n m i).indexed added).foldl OpEncoderStrategy.put
    (ChangeBuilder.new n m i).encoder).finish m.maxOp = _
  rw [hencoder, OpEncoderStrategy.finish_foldl hidentified (ChangeBuilder.nodup_indexed hnd) hmem hlast]
  obtain ⟨p, ops, hops⟩ := List.exists_cons_of_ne_nil hidentified
  have hfirst := hget 0 p (by rw [hops]; rfl)
  rw [hops]
  show Except.ok (p.1.counter, _) = _
  rw [hfirst, Nat.add_zero]

namespace History

variable {start : Change H A (Op A) → ℕ} (h : History (hashesOf changes) A)
  (hb : Begins changes cs start)

include h hb

omit [DecidableEq H] in
/-- An earlier change of an actor ends before the builder of a later one begins. -/
theorem maxOp_lt_start (hd : d ∈ changes) (hc : c ∈ cs) (hact : d.actor = c.actor)
    (hlt : d.seq < c.seq) : d.maxOp < start c :=
  hb.after c hc d (h.own_past (mem_hashesOf.mpr hd) (c.seq - d.seq - 1)
    (mem_hashesOf.mpr (hb.subset c hc)) hact (by omega))

theorem apart : ChangeCollector.Apart (metadataOf changes start cs) where
  nonempty m hm := by
    obtain ⟨c, hc, rfl⟩ := List.mem_map.mp hm
    have hlen := List.length_pos_iff.mpr
      (h.grounded c (mem_hashesOf.mpr (hb.subset c hc))).nonempty
    have hle := hb.le c hc
    show start c ≤ c.startOp + c.ops.length - 1
    omega
  pairwise := by
    refine List.pairwise_map.mpr (List.Pairwise.imp_of_mem (fun {c d} hc hd hne hact => ?_) hb.nodup)
    have hact : c.actor = d.actor := hact
    rcases Nat.lt_trichotomy c.seq d.seq with hlt | hseq | hlt
    · exact Or.inl ⟨hlt, h.maxOp_lt_start hb (hb.subset c hc) hd hact hlt⟩
    · exact absurd (h.noClash c (mem_hashesOf.mpr (hb.subset c hc)) d
        (mem_hashesOf.mpr (hb.subset d hd)) hact hseq) hne
    · exact Or.inr ⟨hlt, h.maxOp_lt_start hb (hb.subset d hd) hc hact.symm hlt⟩

/-- The ids that a builder takes are those of its change. -/
theorem order_iff (hc : c ∈ cs) {i : ℕ} {p : OpId A × Op A}
    (hp : p ∈ (logAt (hashesOf changes) : Log A)) :
    (ChangeBuilder.new n ⟨c.metadata changes, start c⟩ i).order p.1 = .eq ↔ p ∈ c.identified := by
  have hcT : c.hash ∈ hashesOf changes := mem_hashesOf.mpr (hb.subset c hc)
  have hmeta : (⟨c.metadata changes, start c⟩ : BuildChangeMetadata A) ∈ metadataOf changes start cs :=
    List.mem_map_of_mem hc
  rw [ChangeBuilder.order_eq_iff, ChangeCollector.maxOp_new ((h.apart hb).nonempty _ hmeta)]
  constructor
  · rintro ⟨hact, hlow, hhigh⟩
    have hhigh : p.1.counter ≤ c.maxOp := hhigh
    obtain ⟨d, hd, hpd⟩ := hp
    have hact : d.actor = c.actor := (Change.actor_identified hpd).symm.trans hact
    rcases Nat.lt_trichotomy d.seq c.seq with hlt | hseq | hlt
    · have hend := h.maxOp_lt_start hb (mem_hashesOf.mp hd) hc hact hlt
      exact absurd (Change.le_maxOp hpd) (not_le_of_gt (hend.trans_le hlow))
    · exact h.noClash d hd c hcT hact hseq ▸ hpd
    · have hpast := h.own_past hcT (d.seq - c.seq - 1) hd hact.symm (by omega)
      have hbehind := (h.grounded d hd).after c hpast
      exact absurd (Change.startOp_le hpd) (not_le_of_gt (hhigh.trans_lt hbehind))
  · intro hpc
    exact ⟨Change.actor_identified hpc, (hb.le c hc).trans (Change.startOp_le hpc),
      Change.le_maxOp hpc⟩

/-- **The builders are filled with their changes**, if what is added in their counters is the log. -/
theorem fill {added : List (OpId A × Op A)} (hnd : (added.map Prod.fst).Nodup)
    (hadded : ∀ c ∈ cs, ∀ p : OpId A × Op A, start c ≤ p.1.counter → p.1.counter ≤ c.maxOp →
      (p ∈ added ↔ p ∈ (logAt (hashesOf changes) : Log A))) :
    ∃ builders, ChangeCollector.fill n (metadataOf changes start cs) added = some builders ∧
      ∀ i c, cs[i]? = some c →
        ChangeCollector.finishBuilder builders ⟨c.metadata changes, start c⟩ i =
          .ok (c.startOp, c.identified) := by
  have hapart := h.apart hb
  refine ⟨_, hapart.fill_eq hnd, fun i c hi => ?_⟩
  have hc := List.mem_of_getElem? hi
  have hgrounded := h.grounded c (mem_hashesOf.mpr (hb.subset c hc))
  have hm : (metadataOf changes start cs)[i]? = some ⟨c.metadata changes, start c⟩ := by
    unfold metadataOf
    rw [List.getElem?_map, hi]
    rfl
  have hle := hapart.nonempty _ (List.mem_of_getElem? hm)
  rw [ChangeCollector.Apart.finishBuilder_filled hm]
  refine Change.finish_filled hgrounded.nonempty hgrounded.pos (hb.le c hc) rfl hnd fun p => ?_
  constructor
  · rintro ⟨hp, htakes⟩
    obtain ⟨-, hlow, hhigh⟩ := ChangeBuilder.order_eq_iff.mp htakes
    rw [ChangeCollector.maxOp_new hle] at hhigh
    exact (h.order_iff hb hc ((hadded c hc p hlow hhigh).mp hp)).mp htakes
  · intro hp
    have hlog : p ∈ (logAt (hashesOf changes) : Log A) :=
      ⟨c, mem_hashesOf.mpr (hb.subset c hc), hp⟩
    exact ⟨(hadded c hc p ((hb.le c hc).trans (Change.startOp_le hp)) (Change.le_maxOp hp)).mpr hlog,
      (h.order_iff hb hc hlog).mpr hp⟩

end History

end

section

variable [LinearOrder H] [LinearOrder A] [ChangeHash H A (Op A)]
  {reconstruct : List (Change H A (Op A)) → OpSet A} {n : ℕ}

/-- The changes that a replica has applied, and what the collector adds of its rows. -/
theorem Replica.history_ofDoc {doc : Automerge (columns (H := H) reconstruct n)}
    (h : Replica (.ofDoc doc)) : History (hashesOf doc.changeGraph.changes) A :=
  applied_eq_hashesOf doc ▸ h.wf.history h.kept.grounded

theorem Replica.mem_of_perm_collect {doc : Automerge (columns (H := H) reconstruct n)}
    (h : Replica (.ofDoc doc)) (hplain : (AutoCommit.ofDoc doc).log.Plain)
    {added : List (OpId A × Op A)}
    (hadded : added.Perm (ChangeCollector.collect (OpSet.docOps doc.ops))) :
    (added.map Prod.fst).Nodup ∧
      ∀ p, p ∈ added ↔ p ∈ (logAt (hashesOf doc.changeGraph.changes) : Log A) := by
  have hwf := h.kept.wf
  have hrec := h.kept.recorded
  have hd := hrec.detailed hplain
  have hlinked : Linked (OpSet.docOps doc.ops) := docOps_linked hwf hrec.represents hd hplain
  refine ⟨(hadded.map Prod.fst).nodup_iff.mpr (ChangeCollector.collect_nodup hlinked
    (docOps_grouped hwf hrec.represents hd)), fun p => ?_⟩
  rw [hadded.mem_iff, ← applied_eq_hashesOf, ← AutoCommit.log_ofDoc]
  exact mem_collect_docOps hwf hrec.represents hd hplain

/-- **Of what a document saves every change is built again**, in whatever order the operations are
added: no check or assertion fails, and the builder of each change ends with exactly its
operations, in their order, and with its first counter. -/
theorem builders_of_replica {doc : Automerge (columns (H := H) reconstruct n)}
    (h : Replica (.ofDoc doc)) (hplain : (AutoCommit.ofDoc doc).log.Plain)
    {added : List (OpId A × Op A)}
    (hadded : added.Perm (ChangeCollector.collect (OpSet.docOps doc.ops))) :
    ∃ metas builders,
      ChangeCollector.newChanges
        (doc.changeGraph.changes.map fun c => c.metadata doc.changeGraph.changes) = .ok metas ∧
      ChangeCollector.fill n metas added = some builders ∧
      ∀ i c, doc.changeGraph.changes[i]? = some c → ∃ m, metas[i]? = some m ∧
        ChangeCollector.finishBuilder builders m i = .ok (c.startOp, c.identified) := by
  have hhistory := h.history_ofDoc
  have hnodup : doc.changeGraph.changes.Nodup := List.Nodup.of_map _ h.wf.graph.nodup
  obtain ⟨hnd, hmem⟩ := h.mem_of_perm_collect hplain hadded
  obtain ⟨builders, hfill, hfinish⟩ := hhistory.fill (n := n)
    (hhistory.begins_depStart hnodup) hnd fun _ _ p _ _ => hmem p
  refine ⟨_, builders, hhistory.newChanges_eq hnodup, hfill, fun i c hi => ⟨_, ?_, hfinish i c hi⟩⟩
  unfold metadataOf
  rw [List.getElem?_map, hi]
  rfl

/-- The operations come in the reverse order. -/
theorem builders_of_replica_received : ∃ doc, Received doc ∧ ∃ metas builders,
    ChangeCollector.newChanges
      (doc.changeGraph.changes.map fun c => c.metadata doc.changeGraph.changes) = .ok metas ∧
    ChangeCollector.fill 4 metas (ChangeCollector.collect (OpSet.docOps doc.ops)).reverse =
      some builders ∧
    ∀ i c, doc.changeGraph.changes[i]? = some c → ∃ m, metas[i]? = some m ∧
      ChangeCollector.finishBuilder builders m i = .ok (c.startOp, c.identified) := by
  obtain ⟨doc, hdoc⟩ := exists_receivedDoc
  exact ⟨doc, hdoc, builders_of_replica hdoc.replica hdoc.plain (List.reverse_perm _)⟩

end

end AutomergeR
