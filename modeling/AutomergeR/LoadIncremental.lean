import AutomergeR.GetChanges
import AutomergeR.ReceivedChanges
import AutomergeR.Storage

/-! # Loading what was written

What `load_incremental` makes of the bytes of change chunks and of a saved document:
whichever of its two paths it takes, the document has afterwards received exactly
the changes in the bytes (`loadIncremental_rawBytes`, `loadIncremental_save`).
-/

namespace AutomergeR

variable {H A P : Type} [LinearOrder H] [LinearOrder A] [ChangeHash H A P]

/-! ## Reading chunks back -/

namespace ChunkFormat

variable (fmt : ChunkFormat H A P) {current : ChangeGraph H A P}

theorem rawBytes_ne_nil (c : Change H A P) : fmt.rawBytes c ≠ [] := by
  intro h
  have := fmt.rawBytes_length c
  rw [h] at this
  cases this

theorem documentBytes_ne_nil (heads : List H) (changes : List (Change H A P)) :
    fmt.documentBytes heads changes ≠ [] := by
  intro h
  have := fmt.documentBytes_length heads changes
  rw [h] at this
  cases this

theorem loadNextChange_rawBytes (c : Change H A P) (rest : List UInt8) :
    fmt.loadNextChange current (fmt.rawBytes c ++ rest) = .ok ([c], rest) := by
  simp [loadNextChange, fmt.parse_rawBytes]

theorem loadChanges_nil (changes : List (Change H A P)) :
    fmt.loadChanges current [] changes = .complete changes := by
  rw [loadChanges]
  simp

theorem loadChanges_next {data remaining : List UInt8} {cs changes : List (Change H A P)}
    (h : fmt.loadNextChange current data = .ok (cs, remaining)) (hdata : data ≠ []) :
    fmt.loadChanges current data changes = fmt.loadChanges current remaining (changes ++ cs) := by
  rw [loadChanges, if_neg (by simpa using hdata)]
  split
  · rename_i e he
    rw [h] at he
    cases he
  · rename_i cs' remaining' he
    rw [h] at he
    cases he
    rfl

theorem loadChanges_error {data : List UInt8} {changes : List (Change H A P)} {e : LoadError}
    (h : fmt.loadNextChange current data = .error e) (hdata : data ≠ []) :
    fmt.loadChanges current data changes = .partialLoad changes e := by
  rw [loadChanges, if_neg (by simpa using hdata)]
  split
  · rename_i hread
    cases h.symm.trans hread
    rfl
  · rename_i hread
    cases h.symm.trans hread

theorem loadChanges_rawBytes : ∀ (cs changes : List (Change H A P)),
    fmt.loadChanges current (cs.flatMap fmt.rawBytes) changes = .complete (changes ++ cs)
  | [], changes => by rw [List.flatMap_nil, loadChanges_nil, List.append_nil]
  | c :: cs, changes => by
    have hne : fmt.rawBytes c ++ cs.flatMap fmt.rawBytes ≠ [] :=
      List.append_ne_nil_of_left_ne_nil (fmt.rawBytes_ne_nil c) _
    rw [List.flatMap_cons, fmt.loadChanges_next (fmt.loadNextChange_rawBytes c _) hne,
      loadChanges_rawBytes cs, List.append_assoc]
    rfl

end ChunkFormat

/-! ## Rebuilding a graph from its own changes -/

namespace ChangeGraph

variable {g : ChangeGraph H A P}

omit [LinearOrder H] [LinearOrder A] in
/-- The changes of a graph can be delivered in graph order. -/
theorem WF.deliverable [DecidableEq H] (hg : g.WF) : Deliverable ∅ g.changes := by
  suffices ∀ n ≤ g.changes.length, Deliverable ∅ (g.changes.take n) by
    simpa using this _ le_rfl
  intro n
  induction n with
  | zero => exact fun _ => trivial
  | succ n ih =>
    intro hn
    have hlt : n < g.changes.length := hn
    obtain ⟨nd, hnd⟩ : ∃ nd, g.nodes[n]? = some nd :=
      ⟨_, List.getElem?_eq_getElem (by simpa [changes] using hlt)⟩
    have hc : g.changes[n]? = some nd.change := by rw [changes_getElem?, hnd, Option.map_some]
    have htake : g.changes.take (n + 1) = g.changes.take n ++ [nd.change] := by
      rw [List.take_add_one, hc, Option.toList_some]
    have hmem : ∀ {d : H} {j : ℕ}, j < n → g.hashes[j]? = some d →
        d ∈ hashesOf (g.changes.take n) := by
      intro d j hj hd
      rw [hashes, List.getElem?_map, Option.map_eq_some_iff] at hd
      obtain ⟨c, hcj, rfl⟩ := hd
      refine ⟨c, List.mem_of_getElem? (i := j) ?_, rfl⟩
      rw [List.getElem?_take_of_lt hj, hcj]
    rw [htake, deliverable_concat, Set.empty_union]
    refine ⟨ih (by omega), ?_, ?_⟩
    · rintro ⟨c, hct, he⟩
      obtain ⟨j, hj⟩ := List.mem_iff_getElem?.mp hct
      have hjn : j < n := by
        have := (List.getElem?_eq_some_iff.mp hj).1
        rw [List.length_take] at this
        omega
      rw [List.getElem?_take_of_lt hjn] at hj
      have h1 : g.hashes[j]? = some nd.change.hash := by
        rw [hashes, List.getElem?_map, hj, Option.map_some, he]
      have h2 : g.hashes[n]? = some nd.change.hash := by
        rw [hashes, List.getElem?_map, hc, Option.map_some]
      rw [← hashToIndex_eq_some hg.nodup] at h1 h2
      rw [h1, Option.some.injEq] at h2
      omega
    · intro d hd
      obtain ⟨j, hj, hjd⟩ := hg.deps_lt n nd hnd d hd
      exact hmem hj hjd

omit [LinearOrder H] [LinearOrder A] in
/-- The heads are determined by the changes. -/
theorem WF.heads_eq [DecidableEq H] (hg : g.WF) {g' : ChangeGraph H A P} (hg' : g'.WF)
    (h : g'.changes = g.changes) : g'.heads = g.heads := by
  ext x
  rw [hg'.mem_heads, hg.mem_heads, hashes, hashes, h]

end ChangeGraph

theorem reconstructGraph_foldlM : ∀ (changes : List (Change H A P)) (g : ChangeGraph H A P),
    g.WF → Deliverable {h | h ∈ g.hashes} changes → (∀ c ∈ changes, c.Honest) →
    NoClash {c | c ∈ g.changes ∨ c ∈ changes} →
    ∃ g', changes.foldlM (fun g c => if g.hasChange c.hash then none else g.addChange c) g =
      some g'
  | [], g, _, _, _, _ => ⟨g, rfl⟩
  | c :: changes, g, hg, ⟨hnew, hdeps, hrest⟩, hh, hclash => by
    have hseq : g.seqForActor c.actor + 1 = c.seq :=
      hg.next_seq (hh c List.mem_cons_self) hdeps hnew fun b hb ha hs =>
        hclash b (Or.inl hb) c (Or.inr List.mem_cons_self) ha hs
    obtain ⟨g₁, h₁⟩ := Automerge.addChange_isSome hnew hdeps hseq
    obtain ⟨hg₁, hch⟩ : g₁.WF ∧ g₁.changes = g.changes ++ [c] := by
      have hstep := reconstructGraph_wf [c] g g₁ hg (by
        simp [ChangeGraph.hasChange_iff.not.mpr hnew, h₁])
      exact hstep
    have hset : {h | h ∈ g₁.hashes} = insert c.hash {h | h ∈ g.hashes} := by
      ext x
      simp [ChangeGraph.hashes, hch, or_comm]
    obtain ⟨g', h'⟩ := reconstructGraph_foldlM changes g₁ hg₁ (hset ▸ hrest)
      (fun b hb => hh b (List.mem_cons_of_mem _ hb)) (hclash.mono fun b hb => by
        rcases hb with hb | hb
        · rcases List.mem_append.mp (hch ▸ hb) with hb | hb
          · exact Or.inl hb
          · rw [List.mem_singleton] at hb
            exact Or.inr (hb ▸ List.mem_cons_self)
        · exact Or.inr (List.mem_cons_of_mem _ hb))
    refine ⟨g', ?_⟩
    rw [List.foldlM_cons, if_neg (ChangeGraph.hasChange_iff.not.mpr hnew), h₁]
    exact h'

/-- **A graph is rebuilt** from its changes. -/
theorem reconstructGraph_changes {g : ChangeGraph H A P} (hg : g.WF)
    (hh : ∀ c ∈ g.changes, c.Honest) :
    ∃ g', reconstructGraph g.changes = some g' ∧ g'.WF ∧ g'.changes = g.changes ∧
      g'.heads = g.heads := by
  obtain ⟨g', h'⟩ := reconstructGraph_foldlM g.changes .new ChangeGraph.wf_new
    (by simpa [ChangeGraph.new, ChangeGraph.hashes, ChangeGraph.changes] using hg.deliverable) hh
    (hg.indexed.noClash.mono fun c hc => by
      simpa [ChangeGraph.new, ChangeGraph.changes] using hc)
  obtain ⟨hwf, hch⟩ := reconstructGraph_wf g.changes .new g' ChangeGraph.wf_new h'
  exact ⟨g', h', hwf, hch, hg.heads_eq hwf hch⟩

/-- The changes read up to the end of the data or the first malformed chunk. -/
def LoadedChanges.changes : LoadedChanges H A P → List (Change H A P)
  | .complete changes => changes
  | .partialLoad loaded _ => loaded

omit [LinearOrder H] [LinearOrder A] [ChangeHash H A P] in
@[simp] theorem LoadedChanges.changes_complete (changes : List (Change H A P)) :
    (LoadedChanges.complete changes).changes = changes := rfl

/-! ## What a document receives -/

namespace Automerge

variable {M : OpSetModel H A P} {doc doc' other : Automerge M}

/-- What a document that receives changes with hashes `S` keeps and gains. -/
structure Takes (doc doc' : Automerge M) (S : Set H) : Prop where
  wf : doc'.WF
  settled : doc'.Settled
  actor : doc'.actor = doc.actor
  applied : doc.applied ⊆ doc'.applied
  known : doc'.known = doc.known ∪ S

theorem takes_of_applyChanges (h : doc.WF) {changes : List (Change H A P)}
    (hh : ∀ c ∈ changes, c.Honest) (heq : doc.applyChanges changes = .ok doc') :
    doc.Takes doc' (hashesOf changes) := by
  obtain ⟨chap, hext, hs, hk⟩ := applyChanges_ok h hh heq
  exact ⟨hext.wf, hs, hext.actor, hext.applied_subset, hk⟩

omit [LinearOrder A] [LinearOrder H] [ChangeHash H A P] in
theorem isEmpty_iff : doc.isEmpty = true ↔ doc.changeGraph.nodes = [] ∧ doc.queue = [] := by
  simp [isEmpty]

omit [LinearOrder A] [LinearOrder H] in
/-- An empty document has received nothing. -/
theorem known_of_isEmpty (h : doc.isEmpty = true) : doc.applied = ∅ ∧ doc.known = ∅ := by
  obtain ⟨hn, hq⟩ := isEmpty_iff.mp h
  have happ : doc.applied = ∅ := by
    ext x
    simp [applied, ChangeGraph.hashes, ChangeGraph.changes, hn]
  refine ⟨happ, ?_⟩
  rw [Automerge.known, happ, held, hq, hashesOf_nil, Set.union_empty]

omit [LinearOrder A] in
/-- Receiving in place of an empty document. -/
theorem Takes.of_isEmpty (hempty : doc.isEmpty = true) {fresh : Automerge M} {S : Set H}
    (hfresh : fresh.known = S) (hactor : fresh.actor = doc.actor) {T : Set H}
    (h : fresh.Takes doc' T) : doc.Takes doc' (S ∪ T) := by
  obtain ⟨happ, hknown⟩ := known_of_isEmpty hempty
  refine ⟨h.wf, h.settled, h.actor.trans hactor, by simp [happ], ?_⟩
  rw [h.known, hknown, hfresh, Set.empty_union]

omit [LinearOrder A] [LinearOrder H] in
theorem known_new (actor : A) : (Automerge.new M actor).known = ∅ := by
  simp [Automerge.known, applied, held, Automerge.new, ChangeGraph.new, ChangeGraph.hashes,
    ChangeGraph.changes, hashesOf]

variable (fmt : ChunkFormat H A P)

/-! ## Loading with and without a patch log -/

theorem loadIncremental_empty (hempty : doc.isEmpty = true) (data : List UInt8) :
    doc.loadIncremental fmt data =
      match loadWithOptions fmt M doc.actor data with
      | none => .panic
      | some (.error e) => .error e doc
      | some (.ok doc') => .ok doc' := by
  rw [loadIncremental, loadIncrementalLogPatches, if_pos hempty]
  rcases loadWithOptions fmt M doc.actor data with _ | _ | _ <;> rfl

theorem loadIncremental_of_nonempty (hempty : doc.isEmpty = false) (data : List UInt8) :
    doc.loadIncremental fmt data =
      doc.applyChanges (fmt.loadChanges doc.changeGraph data []).changes := by
  rw [loadIncremental, loadIncrementalLogPatches, hempty]
  cases fmt.loadChanges doc.changeGraph data [] <;> rfl

variable {fmt} {log log' : PatchLog A} {data : List UInt8} {err : Option (AutomergeError H A)}

/-- What a load does to the document does not depend on the patch log. -/
theorem loadIncremental_of_logged
    (h : doc.loadIncrementalLogPatches fmt log data = .after err (doc', log')) :
    doc.loadIncremental fmt data = .after err doc' := by
  rw [loadIncrementalLogPatches] at h
  cases hempty : doc.isEmpty with
  | true =>
    rw [if_pos hempty] at h
    rw [loadIncremental_empty fmt hempty]
    revert h
    rcases loadWithOptions fmt M doc.actor data with _ | _ | _ <;> cases err <;> intro h <;>
      cases h <;> rfl
  | false =>
    rw [hempty] at h
    rw [loadIncremental_of_nonempty fmt hempty]
    cases hload : fmt.loadChanges doc.changeGraph data [] <;> rw [hload] at h <;>
      exact applyChanges_of_logged h

/-- Where the actors that only the log has come behind all others, it follows any load. -/
theorem loadIncrementalLogPatches_of_follows (hg : doc.changeGraph.WF) {S : Set A}
    (hlog : log.Follows doc.actors S) (hall : ∀ a ∈ doc'.actors, a ∈ S)
    (h : doc.loadIncremental fmt data = .after err doc') :
    doc.actors ⊆ doc'.actors ∧ ∃ log',
      doc.loadIncrementalLogPatches fmt log data = .after err (doc', log') ∧
        log'.actors ⊆ log.actors ∪ doc'.actors := by
  rw [loadIncrementalLogPatches]
  cases hempty : doc.isEmpty with
  | true =>
    -- there are no actors, and the log stays as it is
    have hnone : doc.actors ⊆ doc'.actors := fun a ha => by
      obtain ⟨c, hc, -⟩ := (mem_actors hg).mp ha
      rw [ChangeGraph.changes, (isEmpty_iff.mp hempty).1] at hc
      cases hc
    rw [loadIncremental_empty fmt hempty] at h
    rw [if_pos rfl]
    refine ⟨hnone, log, ?_, Finset.subset_union_left⟩
    revert h
    rcases loadWithOptions fmt M doc.actor data with _ | _ | _ <;> cases err <;> intro h <;>
      cases h <;> rfl
  | false =>
    rw [loadIncremental_of_nonempty fmt hempty] at h
    obtain ⟨hmono, log', hlog', hsub⟩ := applyChangesLogPatches_of_follows hg hlog hall h
    refine ⟨hmono, log', ?_, hsub⟩
    cases hload : fmt.loadChanges doc.changeGraph data [] <;> rw [hload] at hlog' <;> exact hlog'

/-- A log without actors that have left follows any load. -/
theorem loadIncrementalLogPatches_of_subset (hg : doc.changeGraph.WF)
    (hlog : log.actors ⊆ doc.actors) (h : doc.loadIncremental fmt data = .after err doc') :
    ∃ log', doc.loadIncrementalLogPatches fmt log data = .after err (doc', log') ∧
      log'.actors ⊆ doc'.actors := by
  obtain ⟨hmono, log', hlog', hsub⟩ := loadIncrementalLogPatches_of_follows (S := Set.univ) hg
    (PatchLog.follows_of_subset hlog) (fun _ _ => trivial) h
  exact ⟨log', hlog', hsub.trans (Finset.union_subset (hlog.trans hmono) subset_rfl)⟩

variable (fmt)

/-! ## Loading what was written -/

/-- On an empty document, change chunks are applied to a new one. -/
theorem loadWithOptions_rawBytes (actor : A) (cs : List (Change H A P)) :
    loadWithOptions fmt M actor (cs.flatMap fmt.rawBytes) =
      if cs = [] then some (.ok (.new M actor))
      else
        match (Automerge.new M actor).applyChanges cs with
        | .ok doc => some (.ok doc)
        | .error e _ => some (.error e)
        | .panic => none := by
  rcases cs with _ | ⟨c, cs⟩
  · rfl
  · have hne : fmt.rawBytes c ++ cs.flatMap fmt.rawBytes ≠ [] :=
      List.append_ne_nil_of_left_ne_nil (fmt.rawBytes_ne_nil c) _
    rw [loadWithOptions, List.flatMap_cons, if_neg (by simpa using hne), if_neg (by simp)]
    cases happly : (Automerge.new M actor).applyChanges (c :: cs) <;>
      simp only [fmt.parse_rawBytes, Bool.not_true, Bool.false_eq_true, if_false, loadFirstChunk,
        Option.map_some, fmt.loadChanges_rawBytes, List.nil_append, List.singleton_append, happly]

/-- **Change chunks**, loaded into any document, are received by it. -/
theorem loadIncremental_rawBytes (h : doc.WF) (cs : List (Change H A P))
    (hh : ∀ c ∈ cs, c.Honest) :
    (∀ doc', doc.loadIncremental fmt (cs.flatMap fmt.rawBytes) = .ok doc' →
      doc.Takes doc' (hashesOf cs)) ∧
    (NoClash {c | c ∈ doc.changeGraph.changes ∨ c ∈ doc.queue ∨ c ∈ cs} →
      ∃ doc', doc.loadIncremental fmt (cs.flatMap fmt.rawBytes) = .ok doc') := by
  by_cases hempty : doc.isEmpty = true
  · have hnew := wf_new (M := M) doc.actor
    rw [loadIncremental_empty fmt hempty, loadWithOptions_rawBytes]
    by_cases hcs : cs = []
    · subst hcs
      refine ⟨fun doc' hdoc => ?_, fun _ => ⟨_, rfl⟩⟩
      obtain rfl : Automerge.new M doc.actor = doc' := by simpa using hdoc
      have hself : (Automerge.new M doc.actor).Takes (.new M doc.actor) ∅ :=
        ⟨hnew, fun c hc => (List.not_mem_nil hc).elim, rfl, subset_rfl, by simp⟩
      simpa [hashesOf_nil] using hself.of_isEmpty hempty (known_new _) rfl
    · rw [if_neg hcs]
      constructor
      · intro doc' hdoc
        rcases happ : (Automerge.new M doc.actor).applyChanges cs with d | ⟨e, d⟩ | _
        · obtain rfl : d = doc' := by simpa [happ] using hdoc
          simpa using (takes_of_applyChanges hnew hh happ).of_isEmpty hempty (known_new _) rfl
        · simp [happ] at hdoc
        · simp [happ] at hdoc
      · intro hclash
        obtain ⟨d, hd⟩ := applyChanges_total hnew hh (hclash.mono fun c hc => by
          rcases hc with hc | hc | hc
          · simp [Automerge.new, ChangeGraph.new, ChangeGraph.changes] at hc
          · simp [Automerge.new] at hc
          · exact Or.inr (Or.inr hc))
        exact ⟨d, by simp [hd]⟩
  · rw [loadIncremental_of_nonempty fmt (by simpa using hempty), fmt.loadChanges_rawBytes,
      List.nil_append]
    exact ⟨fun doc' hdoc => takes_of_applyChanges h hh hdoc, fun hclash =>
      applyChanges_total h hh hclash⟩

/-- The document chunk of a saved document is skipped by a document that knows its
heads. -/
theorem loadChanges_save {current : ChangeGraph H A P} (ho : other.WF) :
    fmt.loadChanges current (other.save fmt) [] = .complete
      ((if other.getHeads.all current.hasChange then [] else other.changeGraph.changes) ++
        other.queue) := by
  obtain ⟨g', hrec, -⟩ := reconstructGraph_changes ho.graph fun c hc => ho.honest c (Or.inl hc)
  have hheads : other.changeGraph.heads.sort (· ≤ ·) = other.getHeads := by
    rw [getHeads, ho.deps_eq]
  have hnext : fmt.loadNextChange current (other.save fmt) = .ok
      (if other.getHeads.all current.hasChange then [] else other.changeGraph.changes,
        other.queue.flatMap fmt.rawBytes) := by
    rw [save, ChunkFormat.loadNextChange, fmt.parse_documentBytes _ _ ho.graph, hheads]
    simp only [Bool.not_true, Bool.false_eq_true, if_false]
    split <;> simp [Option.filter, hrec]
  have hne : other.save fmt ≠ [] :=
    List.append_ne_nil_of_left_ne_nil (fmt.documentBytes_ne_nil _ _) _
  rw [fmt.loadChanges_next hnext hne, fmt.loadChanges_rawBytes, List.nil_append]

omit [LinearOrder A] in
theorem applied_subset_of_getHeads (h : doc.WF) (ho : other.WF)
    (hheads : ∀ x ∈ other.getHeads, x ∈ doc.applied) : other.applied ⊆ doc.applied := by
  refine Causal.subset_of_heads_subset (dep_wellFounded (A := A) (P := P)) other.applied_finite
    h.closed ?_
  rw [← getHeads_eq_heads ho]
  exact hheads

/-- On an empty document, a saved document is rebuilt and its queue applied. -/
theorem loadWithOptions_save (ho : other.WF) (actor : A) : ∃ fresh : Automerge M, fresh.WF ∧
    fresh.changeGraph.changes = other.changeGraph.changes ∧ fresh.queue = [] ∧
    fresh.actor = actor ∧ loadWithOptions fmt M actor (other.save fmt) =
      match fresh.applyChanges other.queue with
      | .ok doc => some (.ok doc)
      | .error e _ => some (.error e)
      | .panic => none := by
  have hh : ∀ c ∈ other.changeGraph.changes, c.Honest := fun c hc => ho.honest c (Or.inl hc)
  obtain ⟨g', hrec, _, _, hheads⟩ := reconstructGraph_changes ho.graph hh
  obtain ⟨fresh, hfresh, hgraph⟩ : ∃ fresh,
      reconstructDocument M actor other.changeGraph.changes = some fresh ∧
        fresh.changeGraph = g' := by
    rw [reconstructDocument, hrec]
    exact ⟨_, rfl, rfl⟩
  obtain ⟨hwf, hch, hq, ha, _⟩ := reconstructDocument_spec hh hfresh
  refine ⟨fresh, hwf, hch, hq, ha, ?_⟩
  have hne : other.save fmt ≠ [] :=
    List.append_ne_nil_of_left_ne_nil (fmt.documentBytes_ne_nil _ _) _
  have hfirst : loadFirstChunk M actor (.document (other.changeGraph.heads.sort (· ≤ ·))
      (some other.changeGraph.changes)) = some (fresh, []) := by
    simp [loadFirstChunk, hfresh, hgraph, hheads]
  rw [loadWithOptions, if_neg (by simpa using hne), save, fmt.parse_documentBytes _ _ ho.graph]
  cases happly : fresh.applyChanges other.queue <;>
    simp only [Bool.not_true, Bool.false_eq_true, if_false, hfirst, fmt.loadChanges_rawBytes,
      List.nil_append, happly]

/-- **A saved document**, loaded into any document, brings all it had received. -/
theorem loadIncremental_save (h : doc.WF) (ho : other.WF) :
    (∀ doc', doc.loadIncremental fmt (other.save fmt) = .ok doc' →
      doc.Takes doc' other.known) ∧
    (NoClash {c | c ∈ doc.changeGraph.changes ∨ c ∈ doc.queue ∨
        c ∈ other.changeGraph.changes ∨ c ∈ other.queue} →
      ∃ doc', doc.loadIncremental fmt (other.save fmt) = .ok doc') := by
  have hhq : ∀ c ∈ other.queue, c.Honest := fun c hc => ho.honest c (Or.inr hc)
  by_cases hempty : doc.isEmpty = true
  · obtain ⟨fresh, hwf, hch, hq, ha, hload⟩ := loadWithOptions_save fmt ho doc.actor
    rw [loadIncremental_empty fmt hempty, hload]
    constructor
    · intro doc' hdoc
      rcases happ : fresh.applyChanges other.queue with d | ⟨e, d⟩ | _
      · obtain rfl : d = doc' := by simpa [happ] using hdoc
        have hknown : fresh.known = other.applied := by
          rw [Automerge.known, applied_eq_hashesOf, applied_eq_hashesOf, hch, held, hq,
            hashesOf_nil, Set.union_empty]
        exact (takes_of_applyChanges hwf hhq happ).of_isEmpty hempty hknown ha
      · simp [happ] at hdoc
      · simp [happ] at hdoc
    · intro hclash
      obtain ⟨d, hd⟩ := applyChanges_total hwf hhq (hclash.mono fun c hc => by
        rcases hc with hc | hc | hc
        · exact Or.inr (Or.inr (Or.inl (hch ▸ hc)))
        · simp [hq] at hc
        · exact Or.inr (Or.inr (Or.inr hc)))
      exact ⟨d, by simp [hd]⟩
  · rw [loadIncremental_of_nonempty fmt (by simpa using hempty), loadChanges_save fmt ho]
    have hh : ∀ c ∈ (if other.getHeads.all doc.changeGraph.hasChange then []
        else other.changeGraph.changes) ++ other.queue, c.Honest := by
      intro c hc
      rcases List.mem_append.mp hc with hc | hc
      · split at hc
        · cases hc
        · exact ho.honest c (Or.inl hc)
      · exact hhq c hc
    constructor
    · intro doc' hdoc
      obtain ⟨hwf, hs, ha, happ, hknown⟩ := takes_of_applyChanges h hh hdoc
      refine ⟨hwf, hs, ha, happ, ?_⟩
      rw [hknown, hashesOf_append, Automerge.known, Automerge.known, applied_eq_hashesOf other,
        ← held]
      split
      · -- the heads are known, so everything under them is
        rename_i hall
        have hsub := applied_subset_of_getHeads h ho fun x hx =>
          hasChange_iff.mp (List.all_eq_true.mp hall x hx)
        rw [hashesOf_nil, ← applied_eq_hashesOf]
        ext x
        have := @hsub x
        simp only [Set.mem_union, Set.mem_empty_iff_false]
        tauto
      · rfl
    · intro hclash
      refine applyChanges_total h hh (hclash.mono fun c hc => ?_)
      rcases hc with hc | hc | hc
      · exact Or.inl hc
      · exact Or.inr (Or.inl hc)
      · rcases List.mem_append.mp hc with hc | hc
        · split at hc
          · cases hc
          · exact Or.inr (Or.inr (Or.inl hc))
        · exact Or.inr (Or.inr (Or.inr hc))

end Automerge

end AutomergeR
