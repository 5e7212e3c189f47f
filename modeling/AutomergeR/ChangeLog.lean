import AutomergeR.ApplyChanges
import AutomergeR.MergedLog

/-! # The log of a history

The operations of a change have ids from `start_op` on. A set of changes that is closed
under dependencies makes a log (`logAt`), and where every change was made on top of its
dependencies (`Change.Grounded`) the ids of this log are unique and what its operations name
is there (`History.wf`). What a batch of changes adds to a history it brings to the log
(`History.brings`).
-/

namespace AutomergeR

open Causal

variable {H A : Type}

/-- The ids of operations made one after the other. -/
def issued (startOp : ℕ) (actor : A) (ops : List (Op A)) : List (OpId A × Op A) :=
  ops.zipIdx.map fun x => (.new (startOp + x.2) actor, x.1)

theorem mem_issued {startOp : ℕ} {actor : A} {ops : List (Op A)} {p : OpId A × Op A} :
    p ∈ issued startOp actor ops ↔ ∃ i, ops[i]? = some p.2 ∧ p.1 = .new (startOp + i) actor := by
  unfold issued
  rw [List.mem_map]
  constructor
  · rintro ⟨x, hx, rfl⟩
    exact ⟨x.2, List.mem_zipIdx_iff_getElem?.mp hx, rfl⟩
  · rintro ⟨i, hi, hid⟩
    exact ⟨(p.2, i), List.mem_zipIdx_iff_getElem?.mpr hi, Prod.ext hid.symm rfl⟩

theorem issued_append (startOp : ℕ) (actor : A) (ops ops' : List (Op A)) :
    issued startOp actor (ops ++ ops') =
      issued startOp actor ops ++ issued (startOp + ops.length) actor ops' := by
  have hshift : ops'.zipIdx ops.length = ops'.zipIdx.map fun x => (x.1, ops.length + x.2) :=
    List.zipIdx_eq_map_add
  unfold issued
  rw [List.zipIdx_append, List.map_append, Nat.zero_add, hshift, List.map_map]
  congr 1
  refine List.map_congr_left fun x _ => ?_
  show (OpId.new (startOp + (ops.length + x.2)) actor, x.1) = _
  rw [← Nat.add_assoc]

theorem nodup_issued (startOp : ℕ) (actor : A) (ops : List (Op A)) :
    ((issued startOp actor ops).map Prod.fst).Nodup := by
  unfold issued
  rw [List.map_map]
  have hsnd : (ops.zipIdx.map Prod.snd).Nodup := by
    rw [List.zipIdx_map_snd]
    exact List.nodup_range'
  refine List.Nodup.of_map OpId.counter ?_
  rw [List.map_map]
  have heq : (OpId.counter ∘ Prod.fst ∘ fun x : Op A × ℕ =>
      ((OpId.new (startOp + x.2) actor, x.1) : OpId A × Op A)) = (startOp + ·) ∘ Prod.snd := rfl
  rw [heq, ← List.map_map]
  exact hsnd.map fun _ _ h => Nat.add_left_cancel h

/-- The operations of a change, with their ids. -/
def Change.identified (c : Change H A (Op A)) : List (OpId A × Op A) :=
  issued c.startOp c.actor c.ops

namespace Change

variable {c : Change H A (Op A)} {p : OpId A × Op A}

theorem actor_identified (h : p ∈ c.identified) : p.1.actor = c.actor := by
  obtain ⟨i, -, hid⟩ := mem_issued.mp h
  rw [hid]
  rfl

theorem startOp_le (h : p ∈ c.identified) : c.startOp ≤ p.1.counter := by
  obtain ⟨i, -, hid⟩ := mem_issued.mp h
  rw [hid]
  exact Nat.le_add_right _ _

theorem le_maxOp (h : p ∈ c.identified) : p.1.counter ≤ c.maxOp := by
  obtain ⟨i, hi, hid⟩ := mem_issued.mp h
  have hlt := (List.getElem?_eq_some_iff.mp hi).1
  rw [hid]
  show c.startOp + i ≤ c.startOp + c.ops.length - 1
  omega

theorem unique_identified {q : OpId A × Op A} (hp : p ∈ c.identified) (hq : q ∈ c.identified)
    (heq : p.1 = q.1) : p = q :=
  List.inj_on_of_nodup_map (nodup_issued c.startOp c.actor c.ops) hp hq heq

end Change

variable [ChangeHash H A (Op A)]

/-- The operations of the changes with these hashes. -/
def logAt (T : Set H) : Log A := {p | ∃ c : Change H A (Op A), c.hash ∈ T ∧ p ∈ c.identified}

theorem logAt_mono {T T' : Set H} (h : T ⊆ T') : logAt T ⊆ (logAt T' : Log A) := by
  rintro p ⟨c, hc, hp⟩
  exact ⟨c, h hc, hp⟩

theorem logAt_union (T T' : Set H) : (logAt (T ∪ T') : Log A) = logAt T ∪ logAt T' := by
  ext p
  constructor
  · rintro ⟨c, hc | hc, hp⟩
    · exact Or.inl ⟨c, hc, hp⟩
    · exact Or.inr ⟨c, hc, hp⟩
  · rintro (⟨c, hc, hp⟩ | ⟨c, hc, hp⟩)
    · exact ⟨c, Or.inl hc, hp⟩
    · exact ⟨c, Or.inr hc, hp⟩

theorem logAt_hashesOf (cs : List (Change H A (Op A))) :
    (logAt (hashesOf cs) : Log A) = {p | p ∈ cs.flatMap Change.identified} := by
  ext p
  constructor
  · rintro ⟨c, hc, hp⟩
    exact List.mem_flatMap.mpr ⟨c, mem_hashesOf.mp hc, hp⟩
  · intro hp
    obtain ⟨c, hc, hp⟩ := List.mem_flatMap.mp hp
    exact ⟨c, mem_hashesOf.mpr hc, hp⟩

/-- The past of a change is that of its dependencies, and the change. -/
theorem past_change (c : Change H A (Op A)) : Past (Dep A (Op A)) {c.hash} =
    insert c.hash (Past (Dep A (Op A)) {h | h ∈ c.deps}) := by
  ext x
  constructor
  · rintro ⟨_, rfl, hx⟩
    rcases hx.cases_tail with heq | ⟨y, hx, hy⟩
    · exact Or.inl heq.symm
    · exact Or.inr ⟨y, dep_hash.mp hy, hx⟩
  · rintro (rfl | ⟨y, hy, hx⟩)
    · exact subset_past _ rfl
    · exact ⟨c.hash, rfl, hx.tail (dep_hash.mpr hy)⟩

variable [LinearOrder A]

/-- The change was made on top of its dependencies: its ids are behind theirs, and what its
operations name is among theirs and its own. -/
structure Change.Grounded (c : Change H A (Op A)) : Prop where
  pos : 0 < c.startOp
  nonempty : c.ops ≠ []
  after : ∀ d : Change H A (Op A), d.hash ∈ Past (Dep A (Op A)) {h | h ∈ c.deps} → d.maxOp < c.startOp
  rooted : ∀ p ∈ c.identified, Rooted (logAt (Past (Dep A (Op A)) {c.hash})) p

theorem Change.Grounded.behind {c : Change H A (Op A)} (h : c.Grounded) :
    ∀ p ∈ (logAt (Past (Dep A (Op A)) {h | h ∈ c.deps}) : Log A), p.1.counter < c.startOp := by
  rintro p ⟨d, hd, hp⟩
  exact (Change.le_maxOp hp).trans_lt (h.after d hd)

/-- Changes that a document can have applied, by their hashes. -/
structure History (T : Set H) (A : Type) [LinearOrder A] [ChangeHash H A (Op A)] : Prop where
  closed : Closed (Dep A (Op A)) T
  noClash : NoClash {c : Change H A (Op A) | c.hash ∈ T}
  honest : ∀ c : Change H A (Op A), c.hash ∈ T → c.Honest
  grounded : ∀ c : Change H A (Op A), c.hash ∈ T → c.Grounded

namespace History

variable {T : Set H} (h : History T A)

include h

/-- A later change of an actor has the earlier ones in its past. -/
theorem own_past {c : Change H A (Op A)} (hc : c.hash ∈ T) : ∀ (n : ℕ) {d : Change H A (Op A)},
    d.hash ∈ T → c.actor = d.actor → c.seq + (n + 1) = d.seq →
      c.hash ∈ Past (Dep A (Op A)) {x | x ∈ d.deps} := by
  intro n
  induction n with
  | zero =>
    intro d hd hact hseq
    obtain ⟨e, he, heact, heseq⟩ := (h.honest d hd).2 (by
      have := (h.honest c hc).1
      omega)
    have heT : e.hash ∈ T := h.closed (dep_hash.mpr he) hd
    have hce : c = e := h.noClash c hc e heT (hact.trans heact.symm) (by omega)
    exact hce ▸ subset_past _ he
  | succ n ih =>
    intro d hd hact hseq
    obtain ⟨e, he, heact, heseq⟩ := (h.honest d hd).2 (by omega)
    have heT : e.hash ∈ T := h.closed (dep_hash.mpr he) hd
    have hpast := ih heT (hact.trans heact.symm) (by omega)
    refine (closed_past {x | x ∈ d.deps}).past_subset (fun x hx => ?_) hpast
    exact closed_past _ (dep_hash.mpr hx) (subset_past _ he)

/-- **No id is given twice.** -/
theorem unique {c d : Change H A (Op A)} (hc : c.hash ∈ T) (hd : d.hash ∈ T) {p q : OpId A × Op A}
    (hp : p ∈ c.identified) (hq : q ∈ d.identified) (heq : p.1 = q.1) : c = d := by
  have hact : c.actor = d.actor := by
    rw [← Change.actor_identified hp, ← Change.actor_identified hq, heq]
  -- the later of two changes of an actor begins behind the earlier one
  have hlater : ∀ {c d : Change H A (Op A)}, c.hash ∈ T → d.hash ∈ T → c.actor = d.actor →
      c.seq < d.seq → ∀ p ∈ c.identified, ∀ q ∈ d.identified, p.1.counter < q.1.counter := by
    intro c d hc hd hact hlt p hp q hq
    have hpast := h.own_past hc (d.seq - c.seq - 1) hd hact (by omega)
    exact ((h.grounded d hd).behind p ⟨c, hpast, hp⟩).trans_le (Change.startOp_le hq)
  rcases Nat.lt_trichotomy c.seq d.seq with hlt | hseq | hlt
  · exact absurd (congrArg OpId.counter heq) (hlater hc hd hact hlt p hp q hq).ne
  · exact h.noClash c hc d hd hact hseq
  · exact absurd (congrArg OpId.counter heq) (hlater hd hc hact.symm hlt q hq p hp).ne'

theorem wf : (logAt T : Log A).WF where
  unique := by
    rintro p ⟨c, hc, hp⟩ q ⟨d, hd, hq⟩ heq
    obtain rfl := h.unique hc hd hp hq heq
    exact Change.unique_identified hp hq heq
  rooted := by
    rintro p ⟨c, hc, hp⟩
    refine ((h.grounded c hc).rooted p hp).mono (logAt_mono (h.closed.past_subset ?_))
    rintro _ rfl
    exact hc

omit h in
/-- **What a batch of changes adds** to a history it brings to the log. -/
theorem brings {cs : List (Change H A (Op A))} (h : History (T ∪ hashesOf cs) A)
    (hd : Deliverable T cs) : (logAt T : Log A).Brings (cs.flatMap Change.identified) where
  nodup := by
    have hmem : ∀ c ∈ cs, c.hash ∈ T ∪ hashesOf cs := fun c hc => Or.inr (mem_hashesOf.mpr hc)
    rw [List.map_flatMap, List.nodup_flatMap]
    refine ⟨fun c _ => nodup_issued c.startOp c.actor c.ops, ?_⟩
    have hne : cs.Pairwise fun c d => c.hash ≠ d.hash := List.pairwise_map.mp hd.nodup
    refine hne.imp_of_mem fun {c d} hc hd' hne x hx hx' => ?_
    obtain ⟨p, hp, rfl⟩ := List.mem_map.mp hx
    obtain ⟨q, hq, heq⟩ := List.mem_map.mp hx'
    exact hne (congrArg Change.hash (h.unique (hmem c hc) (hmem d hd') hp hq heq.symm))
  fresh := by
    rintro p hp q ⟨d, hdT, hq⟩ heq
    obtain ⟨c, hc, hp⟩ := List.mem_flatMap.mp hp
    obtain rfl := h.unique (Or.inl hdT) (Or.inr (mem_hashesOf.mpr hc)) hq hp heq
    exact hd.not_mem d hc hdT
  rooted := by
    intro p hp
    have hext : (logAt T : Log A).extend (cs.flatMap Change.identified) =
        logAt (T ∪ hashesOf cs) := by
      rw [logAt_union, logAt_hashesOf]
      rfl
    rw [hext]
    obtain ⟨c, hc, hp⟩ := List.mem_flatMap.mp hp
    exact h.wf.rooted p ⟨c, Or.inr (mem_hashesOf.mpr hc), hp⟩

end History

end AutomergeR
