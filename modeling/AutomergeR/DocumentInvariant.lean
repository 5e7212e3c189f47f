import AutomergeR.ChangeHistory
import AutomergeR.Document

/-! # What every document keeps

`Automerge.WF` is the invariant of a document: a well-formed graph, heads that
are the graph's heads, a queue of unapplied changes, and only honest changes,
made after their actor's previous change, as `transaction_args` makes them. The
second half follows the first loop of `apply_changes` (`stageChanges_spec`).
-/

namespace AutomergeR

variable {H A P : Type} [ChangeHash H A P]

/-- A change as `transaction_args` makes it: numbered from one, with its actor's
previous change among its dependencies. -/
def Change.Honest (c : Change H A P) : Prop :=
  0 < c.seq ∧ (1 < c.seq → ∃ d : Change H A P,
    d.hash ∈ c.deps ∧ d.actor = c.actor ∧ d.seq + 1 = c.seq)

/-- No two different changes share an (actor, sequence number). -/
def NoClash (S : Set (Change H A P)) : Prop :=
  ∀ c ∈ S, ∀ d ∈ S, c.actor = d.actor → c.seq = d.seq → c = d

omit [ChangeHash H A P] in
theorem NoClash.mono {S T : Set (Change H A P)} (h : NoClash T) (hST : S ⊆ T) : NoClash S :=
  fun c hc d hd => h c (hST hc) d (hST hd)

/-! ## Batches that can be applied one after the other -/

/-- The changes of `cs` are new to `S` and each finds its dependencies in `S` or
earlier in `cs`. -/
def Deliverable : Set H → List (Change H A P) → Prop
  | _, [] => True
  | S, c :: cs => c.hash ∉ S ∧ (∀ d ∈ c.deps, d ∈ S) ∧ Deliverable (insert c.hash S) cs

/-- The hashes of a list of changes. -/
def hashesOf (cs : List (Change H A P)) : Set H := {h | ∃ c ∈ cs, c.hash = h}

theorem mem_hashesOf {cs : List (Change H A P)} {c : Change H A P} :
    c.hash ∈ hashesOf cs ↔ c ∈ cs := by
  constructor
  · rintro ⟨d, hd, h⟩
    exact Change.hash_inj h ▸ hd
  · exact fun h => ⟨c, h, rfl⟩

theorem hashesOf_append {cs ds : List (Change H A P)} :
    hashesOf (cs ++ ds) = hashesOf cs ∪ hashesOf ds := by
  ext h
  simp [hashesOf, or_and_right, exists_or]

theorem hashesOf_nil : hashesOf ([] : List (Change H A P)) = ∅ := by
  simp [hashesOf]

theorem hashesOf_cons {c : Change H A P} {cs : List (Change H A P)} :
    hashesOf (c :: cs) = insert c.hash (hashesOf cs) := by
  ext h
  simp [hashesOf, eq_comm]

theorem hashesOf_mono {cs ds : List (Change H A P)} (h : cs ⊆ ds) :
    hashesOf cs ⊆ hashesOf ds := by
  rintro _ ⟨c, hc, rfl⟩
  exact ⟨c, h hc, rfl⟩

theorem deliverable_concat : ∀ {S : Set H} {cs : List (Change H A P)} {c : Change H A P},
    Deliverable S (cs ++ [c]) ↔
      Deliverable S cs ∧ c.hash ∉ S ∪ hashesOf cs ∧ ∀ d ∈ c.deps, d ∈ S ∪ hashesOf cs
  | S, [], c => by simp [Deliverable, hashesOf_nil]
  | S, b :: cs, c => by
    have hset : insert b.hash S ∪ hashesOf cs = S ∪ hashesOf (b :: cs) := by
      rw [hashesOf_cons, Set.insert_union, Set.union_insert]
    rw [List.cons_append, Deliverable, Deliverable, deliverable_concat, hset]
    tauto

theorem Deliverable.not_mem : ∀ {S : Set H} {cs : List (Change H A P)}, Deliverable S cs →
    ∀ c ∈ cs, c.hash ∉ S
  | _, _ :: _, ⟨hb, _, hcs⟩, c, hc => by
    rcases List.mem_cons.mp hc with rfl | hc
    · exact hb
    · exact fun h => hcs.not_mem c hc (Set.mem_insert_of_mem _ h)

theorem Deliverable.nodup : ∀ {S : Set H} {cs : List (Change H A P)}, Deliverable S cs →
    (cs.map Change.hash).Nodup
  | _, [], _ => List.nodup_nil
  | _, b :: cs, ⟨_, _, hcs⟩ => by
    rw [List.map_cons, List.nodup_cons]
    refine ⟨fun h => ?_, hcs.nodup⟩
    obtain ⟨c, hc, he⟩ := List.mem_map.mp h
    exact hcs.not_mem c hc (he ▸ Set.mem_insert _ _)

/-- What a deliverable batch adds to a closed set is closed. -/
theorem Deliverable.closed : ∀ {S : Set H} {cs : List (Change H A P)}, Deliverable S cs →
    Causal.Closed (Dep A P) S → Causal.Closed (Dep A P) (S ∪ hashesOf cs)
  | S, [], _, hS => by simpa [hashesOf_nil] using hS
  | S, b :: cs, ⟨_, hdeps, hcs⟩, hS => by
    have hins : Causal.Closed (Dep A P) (insert b.hash S) := by
      rintro a x hax (rfl | hx)
      · exact Set.mem_insert_of_mem _ (hdeps a (dep_hash.mp hax))
      · exact Set.mem_insert_of_mem _ (hS hax hx)
    have := hcs.closed hins
    rwa [Set.insert_union, ← Set.union_insert, ← hashesOf_cons] at this

/-! ## Sequence numbers in a graph of honest changes -/

namespace ChangeGraph

variable {g : ChangeGraph H A P}

omit [ChangeHash H A P] in
/-- The graph has a change for every sequence number up to the actor's count. -/
theorem Indexed.exists_seq (hg : g.Indexed) {a : A} {n : ℕ} (h0 : 0 < n)
    (hn : n ≤ g.seqForActor a) : ∃ c ∈ g.changes, c.actor = a ∧ c.seq = n := by
  have hlt : n - 1 < (g.seqIndex a).length := by
    unfold seqForActor at hn
    omega
  obtain ⟨nd, hnd, ha, hs⟩ := (hg.get_iff a (n - 1) _).mp (List.getElem?_eq_getElem hlt)
  exact ⟨nd.change, List.mem_map.mpr ⟨nd, List.mem_of_getElem? hnd, rfl⟩, ha, by omega⟩

omit [ChangeHash H A P] in
theorem mem_changes {c : Change H A P} (hc : c ∈ g.changes) :
    ∃ (i : ℕ) (nd : Node H A P), g.nodes[i]? = some nd ∧ nd.change = c := by
  obtain ⟨i, hi⟩ := List.mem_iff_getElem?.mp hc
  rw [changes_getElem?, Option.map_eq_some_iff] at hi
  obtain ⟨nd, hnd⟩ := hi
  exact ⟨i, nd, hnd⟩

omit [ChangeHash H A P] in
theorem Indexed.get_seqIndex (hg : g.Indexed) {i : ℕ} {nd : Node H A P}
    (hnd : g.nodes[i]? = some nd) :
    (g.seqIndex nd.change.actor)[nd.change.seq - 1]? = some i :=
  (hg.get_iff _ _ i).mpr ⟨nd, hnd, rfl, by have := hg.seq_pos i nd hnd; omega⟩

omit [ChangeHash H A P] in
theorem Indexed.seq_le (hg : g.Indexed) {c : Change H A P} (hc : c ∈ g.changes) :
    0 < c.seq ∧ c.seq ≤ g.seqForActor c.actor := by
  obtain ⟨i, nd, hnd, rfl⟩ := mem_changes hc
  have hpos := hg.seq_pos i nd hnd
  have := (List.getElem?_eq_some_iff.mp (hg.get_seqIndex hnd)).1
  exact ⟨hpos, by unfold seqForActor; omega⟩

omit [ChangeHash H A P] in
/-- In one graph the pair (actor, sequence number) names a change. -/
theorem Indexed.noClash (hg : g.Indexed) : NoClash {c | c ∈ g.changes} := by
  intro c hc d hd ha hs
  obtain ⟨i, nd, hnd, rfl⟩ := mem_changes hc
  obtain ⟨j, ne, hne, rfl⟩ := mem_changes hd
  have hi := hg.get_seqIndex hnd
  rw [ha, hs, hg.get_seqIndex hne, Option.some.injEq] at hi
  rw [← hi, hne, Option.some.injEq] at hnd
  rw [hnd]

variable [DecidableEq H]

theorem WF.ownChain (hg : g.WF) (hhonest : ∀ c ∈ g.changes, c.Honest) : g.OwnChain := by
  intro i j nd ne hi hj ha hs
  have hpos := hg.indexed.seq_pos j ne hj
  have hmem : ∀ {k : ℕ} {n : Node H A P}, g.nodes[k]? = some n → n.change ∈ g.changes :=
    fun h => List.mem_map.mpr ⟨_, List.mem_of_getElem? h, rfl⟩
  obtain ⟨d, hd, hda, hds⟩ := (hhonest nd.change (hmem hi)).2 (by omega)
  have hdg : d ∈ g.changes := hash_mem_hashes.mp (hg.deps_mem (hmem hi) hd)
  have hde : d = ne.change := hg.indexed.noClash d hdg ne.change (hmem hj)
    (hda.trans ha.symm) (by omega)
  refine .single (hg.parent_iff.mpr ⟨nd, hi, d.hash, hd, ?_⟩)
  rw [hashes_getElem?, hj, Option.map_some, hde]

/-- A ready honest change that clashes with nothing is the next of its actor. -/
theorem WF.next_seq (hg : g.WF) {c : Change H A P} (hc : c.Honest)
    (hdeps : ∀ d ∈ c.deps, d ∈ g.hashes) (hnew : c.hash ∉ g.hashes)
    (hclash : ∀ b ∈ g.changes, b.actor = c.actor → b.seq = c.seq → b = c) :
    g.seqForActor c.actor + 1 = c.seq := by
  have hle : g.seqForActor c.actor < c.seq := by
    by_contra hge
    obtain ⟨b, hb, ha, hs⟩ := hg.indexed.exists_seq (a := c.actor) hc.1 (by omega)
    exact hnew (hash_mem_hashes.mpr (hclash b hb ha hs ▸ hb))
  by_cases h1 : 1 < c.seq
  · obtain ⟨d, hd, hda, hds⟩ := hc.2 h1
    have hdg : d ∈ g.changes := hash_mem_hashes.mp (hdeps _ hd)
    have := (hg.indexed.seq_le hdg).2
    rw [hda] at this
    omega
  · have := hc.1
    omega

end ChangeGraph

/-! ## The invariant of a document -/

namespace Automerge

variable [DecidableEq H] {M : OpSetModel H A P}

def applied (doc : Automerge M) : Set H := {h | h ∈ doc.changeGraph.hashes}

def held (doc : Automerge M) : Set H := hashesOf doc.queue

/-- Every change the document has received, applied or held back. -/
def known (doc : Automerge M) : Set H := doc.applied ∪ doc.held

structure WF (doc : Automerge M) : Prop where
  graph : doc.changeGraph.WF
  deps_eq : doc.deps = doc.changeGraph.heads
  queue_nodup : (doc.queue.map Change.hash).Nodup
  queue_new : ∀ c ∈ doc.queue, c.hash ∉ doc.applied
  honest : ∀ c, c ∈ doc.changeGraph.changes ∨ c ∈ doc.queue → c.Honest

/-- Nothing in the queue is ready. -/
def Settled (doc : Automerge M) : Prop := ∀ c ∈ doc.queue, ∃ d ∈ c.deps, d ∉ doc.applied

omit [DecidableEq H] in
theorem applied_eq_hashesOf (doc : Automerge M) : doc.applied = hashesOf doc.changeGraph.changes := by
  ext h
  exact ChangeGraph.mem_hashes

theorem WF.closed {doc : Automerge M} (h : doc.WF) : Causal.Closed (Dep A P) doc.applied :=
  h.graph.closed

theorem WF.ownChain {doc : Automerge M} (h : doc.WF) : doc.changeGraph.OwnChain :=
  h.graph.ownChain fun c hc => h.honest c (Or.inl hc)

omit [DecidableEq H] in
theorem applied_finite (doc : Automerge M) : doc.applied.Finite :=
  List.finite_toSet _

/-- A settled document has applied exactly what its received changes allow. -/
theorem applied_eq_core {doc : Automerge M} (hg : doc.changeGraph.WF) (hs : doc.Settled) :
    doc.applied = Causal.Core (Dep A P) doc.known := by
  refine Causal.delivered_eq_core dep_wellFounded hg.closed Set.subset_union_left ?_
  intro a ha hna
  obtain ⟨c, hc, rfl⟩ := ha.resolve_left hna
  obtain ⟨d, hd, hdn⟩ := hs c hc
  exact ⟨d, dep_hash.mpr hd, hdn⟩

/-! The queue is independent of everything else. -/

section Queue

variable {doc : Automerge M} {queue queue' : List (Change H A P)}

omit [DecidableEq H] [ChangeHash H A P] in
@[simp] theorem withQueue_queue : (doc.withQueue queue).queue = queue := rfl

omit [DecidableEq H] [ChangeHash H A P] in
@[simp] theorem withQueue_changeGraph : (doc.withQueue queue).changeGraph = doc.changeGraph := rfl

omit [DecidableEq H] [ChangeHash H A P] in
@[simp] theorem withQueue_ops : (doc.withQueue queue).ops = doc.ops := rfl

omit [DecidableEq H] [ChangeHash H A P] in
@[simp] theorem withQueue_deps : (doc.withQueue queue).deps = doc.deps := rfl

omit [DecidableEq H] [ChangeHash H A P] in
@[simp] theorem withQueue_actor : (doc.withQueue queue).actor = doc.actor := rfl

omit [DecidableEq H] [ChangeHash H A P] in
@[simp] theorem withQueue_withQueue :
    (doc.withQueue queue).withQueue queue' = doc.withQueue queue' := rfl

omit [DecidableEq H] [ChangeHash H A P] in
@[simp] theorem withQueue_self : doc.withQueue doc.queue = doc := rfl

omit [DecidableEq H] in
@[simp] theorem applied_withQueue : (doc.withQueue queue).applied = doc.applied := rfl

end Queue

theorem wf_new [LinearOrder A] (actor : A) : (Automerge.new M actor).WF where
  graph := ChangeGraph.wf_new
  deps_eq := rfl
  queue_nodup := List.nodup_nil
  queue_new := by simp [new]
  honest := by simp [new, ChangeGraph.new, ChangeGraph.changes]

/-! ## Staging -/

/-- The state between the loops of `apply_changes`: what is in the batch can be
delivered in order, what is in the queue is in neither graph nor batch. -/
structure Staging (doc : Automerge M) (chap : BatchApply H A P) : Prop where
  deliverable : Deliverable doc.applied chap
  queue_nodup : (doc.queue.map Change.hash).Nodup
  queue_new : ∀ c ∈ doc.queue, c.hash ∉ doc.applied ∪ hashesOf chap
  honest : ∀ c, c ∈ chap ∨ c ∈ doc.queue → c.Honest

theorem WF.staging {doc : Automerge M} (h : doc.WF) : doc.Staging [] where
  deliverable := trivial
  queue_nodup := h.queue_nodup
  queue_new := by simpa [hashesOf_nil] using h.queue_new
  honest := fun c hc => h.honest c (Or.inr (hc.resolve_left List.not_mem_nil))

/-! ## Clashes -/

/-- One of the changes is neither known nor earlier in the list, and its sequence number is
not behind those of its actor, or is that of such a change. -/
def ClashesWith (g : ChangeGraph H A P) : Set H → List (Change H A P) → Prop
  | _, [] => False
  | known, c :: changes =>
    (c.hash ∉ known ∧ (c.seq ≤ g.seqForActor c.actor ∨
      ∃ b : Change H A P, b.hash ∈ known ∧ b.actor = c.actor ∧ b.seq = c.seq)) ∨
      ClashesWith g (insert c.hash known) changes

/-- Honest changes clash only over one (actor, sequence number). -/
theorem not_clashesWith {g : ChangeGraph H A P} (hg : g.WF) :
    ∀ (changes : List (Change H A P)) (known : Set H), (∀ c ∈ changes, c.Honest) →
      (∀ c ∈ g.changes, c.hash ∈ known) →
      NoClash {c : Change H A P | c.hash ∈ known ∨ c ∈ changes} → ¬ ClashesWith g known changes
  | [], _, _, _, _ => id
  | c :: changes, known, hh, hg', hclash => by
    rintro (⟨hnew, hle | ⟨b, hb, ha, hs⟩⟩ | hrest)
    · obtain ⟨b, hb, ha, hs⟩ :=
        hg.indexed.exists_seq (a := c.actor) (hh c List.mem_cons_self).1 hle
      obtain rfl := hclash b (Or.inl (hg' b hb)) c (Or.inr List.mem_cons_self) ha hs
      exact hnew (hg' b hb)
    · obtain rfl := hclash b (Or.inl hb) c (Or.inr List.mem_cons_self) ha hs
      exact hnew hb
    · refine not_clashesWith hg changes _ (fun b hb => hh b (List.mem_cons_of_mem _ hb))
        (fun b hb => Set.mem_insert_of_mem _ (hg' b hb)) (hclash.mono fun b hb => ?_) hrest
      rcases hb with (hb | hb) | hb
      · exact Or.inr (Change.hash_inj hb ▸ List.mem_cons_self)
      · exact Or.inl hb
      · exact Or.inr (List.mem_cons_of_mem _ hb)

section Loops

variable [LinearOrder A] {doc : Automerge M} {chap : BatchApply H A P} {c : Change H A P}

omit [LinearOrder A] in
theorem hasChange_iff {h : H} : doc.hasChange h = true ↔ h ∈ doc.applied :=
  ChangeGraph.hasChange_iff

omit [LinearOrder A] in
theorem any_hash_iff {cs : List (Change H A P)} {h : H} :
    cs.any (fun c => decide (c.hash = h)) = true ↔ h ∈ hashesOf cs := by
  simp [hashesOf]

omit [LinearOrder A] in
theorem batch_hasChange_iff {h : H} : chap.hasChange doc h = true ↔
    h ∈ doc.applied ∪ hashesOf chap ∪ doc.held := by
  simp only [BatchApply.hasChange, readyQHasHash, Bool.or_eq_true, hasChange_iff, any_hash_iff,
    held, Set.mem_union]

omit [LinearOrder A] in
theorem isCausallyReady_iff : doc.isCausallyReady chap c = true ↔
    ∀ d ∈ c.deps, d ∈ doc.applied ∪ hashesOf chap := by
  have h : ∀ d, doc.changeGraph.hasChange d = true ↔ d ∈ doc.applied := fun _ => hasChange_iff
  simp only [isCausallyReady, List.all_eq_true, Bool.or_eq_true, h, any_hash_iff, Set.mem_union]

/-- The three checks for a sequence number that is taken. -/
theorem duplicateSeq_iff (hg : doc.changeGraph.WF)
    (hnew : c.hash ∉ doc.applied ∪ hashesOf chap ∪ doc.held) :
    chap.duplicateSeq doc c = true ↔ c.seq ≤ doc.changeGraph.seqForActor c.actor ∨
      ∃ b : Change H A P, b.hash ∈ doc.applied ∪ hashesOf chap ∪ doc.held ∧ b.actor = c.actor ∧
        b.seq = c.seq := by
  simp only [BatchApply.duplicateSeq, Bool.or_eq_true, hasActorSeq, BatchApply.hasActorSeq,
    readyQHasDupe, decide_eq_true_eq, List.any_eq_true]
  constructor
  · rintro ((hle | ⟨b, hb, ha, hs⟩) | ⟨b, hb, hs, ha, -⟩)
    · exact Or.inl hle
    · exact Or.inr ⟨b, Or.inl (Or.inr (mem_hashesOf.mpr hb)), ha, hs⟩
    · exact Or.inr ⟨b, Or.inr (mem_hashesOf.mpr hb), ha, hs⟩
  · rintro (hle | ⟨b, (hb | hb) | hb, ha, hs⟩)
    · exact Or.inl (Or.inl hle)
    · have hle := (hg.indexed.seq_le (ChangeGraph.hash_mem_hashes.mp hb)).2
      rw [ha, hs] at hle
      exact Or.inl (Or.inl hle)
    · exact Or.inl (Or.inr ⟨b, mem_hashesOf.mp hb, ha, hs⟩)
    · refine Or.inr ⟨b, mem_hashesOf.mp hb, hs, ha, fun he => hnew ?_⟩
      exact he ▸ Or.inr hb

/-- The assertions of `push` hold for a change that has just passed the checks. -/
theorem push_of_checked (hnew : c.hash ∉ doc.applied ∪ hashesOf chap ∪ doc.held)
    (hdup : chap.duplicateSeq doc c = false) : chap.push c = some (chap ++ [c]) := by
  have h1 : chap.hasActorSeq c = false := by
    simp only [BatchApply.duplicateSeq, Bool.or_eq_false_iff] at hdup
    exact hdup.1.2
  have h2 : chap.any (fun b => decide (b.hash = c.hash)) = false := by
    rw [Bool.eq_false_iff, Ne, any_hash_iff]
    exact fun h => hnew (Or.inl (Or.inr h))
  simp [BatchApply.push, h1, h2]

omit [LinearOrder A] [DecidableEq H] in
theorem Staging.push (h : doc.Staging chap) (hc : c.Honest)
    (hnew : c.hash ∉ doc.applied ∪ hashesOf chap ∪ doc.held)
    (hready : ∀ d ∈ c.deps, d ∈ doc.applied ∪ hashesOf chap) : doc.Staging (chap ++ [c]) where
  deliverable := deliverable_concat.mpr ⟨h.deliverable, fun hm => hnew (Or.inl hm), hready⟩
  queue_nodup := h.queue_nodup
  queue_new := by
    intro q hq hm
    rw [hashesOf_append, ← Set.union_assoc] at hm
    rcases hm with hm | ⟨b, hb, he⟩
    · exact h.queue_new q hq hm
    · rw [List.mem_singleton] at hb
      subst hb
      exact hnew (Or.inr ⟨q, hq, he.symm⟩)
  honest := by
    rintro b (hb | hb)
    · rcases List.mem_append.mp hb with hb | hb
      · exact h.honest b (Or.inl hb)
      · rw [List.mem_singleton] at hb
        exact hb ▸ hc
    · exact h.honest b (Or.inr hb)

omit [LinearOrder A] [DecidableEq H] in
theorem Staging.enqueue (h : doc.Staging chap) (hc : c.Honest)
    (hnew : c.hash ∉ doc.applied ∪ hashesOf chap ∪ doc.held) :
    Staging (doc.withQueue (doc.queue ++ [c])) chap where
  deliverable := h.deliverable
  queue_nodup := by
    rw [withQueue_queue, List.map_append]
    refine h.queue_nodup.append (List.nodup_singleton _) ?_
    simpa using fun q hq he => hnew (Or.inr ⟨q, hq, he⟩)
  queue_new := by
    intro q hq
    rcases List.mem_append.mp hq with hq | hq
    · exact h.queue_new q hq
    · rw [List.mem_singleton] at hq
      subst hq
      exact fun hm => hnew (Or.inl hm)
  honest := by
    rintro b (hb | hb)
    · exact h.honest b (Or.inl hb)
    · rcases List.mem_append.mp hb with hb | hb
      · exact h.honest b (Or.inr hb)
      · rw [List.mem_singleton] at hb
        exact hb ▸ hc

/-- **The first loop.** It never panics; it only appends to batch and queue; when it reports
no error every given change is known; and it reports an error exactly if a change clashes. -/
theorem stageChanges_spec : ∀ (changes : List (Change H A P)) (doc : Automerge M)
    (chap : BatchApply H A P), doc.changeGraph.WF → ∃ waiting added err,
      doc.stageChanges chap changes =
        some (doc.withQueue (doc.queue ++ waiting), chap ++ added, err) ∧
      waiting ⊆ changes ∧ added ⊆ changes ∧ (∀ c ∈ added, c.hash ∉ doc.applied) ∧
      (err = none → hashesOf changes ⊆
        doc.applied ∪ hashesOf (chap ++ added) ∪ hashesOf (doc.queue ++ waiting)) ∧
      (err ≠ none ↔
        ClashesWith doc.changeGraph (doc.applied ∪ hashesOf chap ∪ doc.held) changes) ∧
      (doc.Staging chap → (∀ c ∈ changes, c.Honest) →
        Staging (doc.withQueue (doc.queue ++ waiting)) (chap ++ added))
  | [], doc, chap, _ => by
    refine ⟨[], [], none, by simp [stageChanges], by simp, by simp, by simp, ?_, ?_,
      fun hst _ => by simpa using hst⟩
    · simp [hashesOf_nil]
    · simp [ClashesWith]
  | c :: changes, doc, chap, hg => by
    rw [stageChanges]
    by_cases hknown : chap.hasChange doc c.hash = true
    · rw [if_pos hknown]
      have hmem := batch_hasChange_iff.mp hknown
      obtain ⟨waiting, added, err, heq, hw, ha, hnew, hall, herr, hst⟩ :=
        stageChanges_spec changes doc chap hg
      refine ⟨waiting, added, err, heq, List.subset_cons_of_subset _ hw,
        List.subset_cons_of_subset _ ha, hnew, fun he => ?_, ?_,
        fun hs hh => hst hs fun b hb => hh b (List.mem_cons_of_mem _ hb)⟩
      · rw [hashesOf_cons, Set.insert_subset_iff]
        refine ⟨?_, hall he⟩
        rcases hmem with (h | h) | h
        · exact Or.inl (Or.inl h)
        · exact Or.inl (Or.inr (by rw [hashesOf_append]; exact Or.inl h))
        · exact Or.inr (by rw [hashesOf_append]; exact Or.inl h)
      · rw [herr, ClashesWith, Set.insert_eq_of_mem hmem]
        exact ⟨Or.inr, fun h => h.resolve_left fun h => h.1 hmem⟩
    · rw [if_neg hknown]
      have hnew : c.hash ∉ doc.applied ∪ hashesOf chap ∪ doc.held := fun h =>
        hknown (batch_hasChange_iff.mpr h)
      have hdup := duplicateSeq_iff hg hnew
      by_cases hseq : chap.duplicateSeq doc c = true
      · rw [if_pos hseq]
        refine ⟨[], [], some (.duplicateSeqNumber c.seq c.actor), by simp, by simp, by simp,
          by simp, by simp, ?_, fun hst _ => by simpa using hst⟩
        exact iff_of_true (by simp) (Or.inl ⟨hnew, hdup.mp hseq⟩)
      · rw [if_neg hseq]
        -- the change is known from here on, wherever it goes
        have hskip : ∀ K, K = insert c.hash (doc.applied ∪ hashesOf chap ∪ doc.held) →
            (ClashesWith doc.changeGraph K changes ↔ ClashesWith doc.changeGraph
              (doc.applied ∪ hashesOf chap ∪ doc.held) (c :: changes)) := by
          rintro K rfl
          exact ⟨Or.inr, fun h => h.resolve_left fun h => hseq (hdup.mpr h.2)⟩
        by_cases hready : doc.isCausallyReady chap c = true
        · rw [if_pos hready, push_of_checked hnew (by simpa using hseq)]
          obtain ⟨waiting, added, err, heq, hw, ha, hold, hall, herr, hst⟩ :=
            stageChanges_spec changes doc (chap ++ [c]) hg
          refine ⟨waiting, c :: added, err, by simpa using heq,
            List.subset_cons_of_subset _ hw, List.cons_subset_cons c ha, ?_, fun he => ?_, ?_,
            fun hs hh => ?_⟩
          · rintro b (_ | ⟨_, hb⟩)
            · exact fun hmem => hnew (Or.inl (Or.inl hmem))
            · exact hold b hb
          · rw [hashesOf_cons, Set.insert_subset_iff]
            refine ⟨Or.inl (Or.inr (mem_hashesOf.mpr (by simp))), ?_⟩
            simpa using hall he
          · rw [herr]
            refine hskip _ ?_
            rw [hashesOf_append, hashesOf_cons, hashesOf_nil, Set.union_insert, Set.union_empty,
              Set.union_insert, Set.insert_union]
          · simpa using hst (hs.push (hh c List.mem_cons_self) hnew (isCausallyReady_iff.mp hready))
              fun b hb => hh b (List.mem_cons_of_mem _ hb)
        · rw [if_neg hready]
          obtain ⟨waiting, added, err, heq, hw, ha, hold, hall, herr, hst⟩ :=
            stageChanges_spec changes (doc.withQueue (doc.queue ++ [c])) chap hg
          refine ⟨c :: waiting, added, err, by simpa using heq, List.cons_subset_cons c hw,
            List.subset_cons_of_subset _ ha, hold, fun he => ?_, ?_, fun hs hh => ?_⟩
          · rw [hashesOf_cons, Set.insert_subset_iff]
            refine ⟨Or.inr (mem_hashesOf.mpr (by simp)), ?_⟩
            simpa [applied] using hall he
          · rw [herr]
            refine hskip _ ?_
            show doc.applied ∪ hashesOf chap ∪ hashesOf (doc.queue ++ [c]) = _
            rw [hashesOf_append, hashesOf_cons, hashesOf_nil, Set.union_insert, Set.union_empty,
              Set.union_insert]
            rfl
          · simpa using hst (hs.enqueue (hh c List.mem_cons_self) hnew)
              fun b hb => hh b (List.mem_cons_of_mem _ hb)

end Loops

end Automerge

end AutomergeR
