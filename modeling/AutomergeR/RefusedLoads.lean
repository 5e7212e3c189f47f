import AutomergeR.ReceivedChanges
import AutomergeR.WellFormedChunks

/-! # Which loads are refused

`Refuses` says when loading bytes into a document is an error, `reads` what is read of them
otherwise, and `HasRead` where that leaves the document: it knows what it knew and what was
read, and has applied what has its whole past among it (`loadIncremental_refuses`). Neither
of them looks at the outcome of a load, and they depend on no more of the document than what
it knows and has applied (`SameStanding`), so vectors that are loaded one after the other
can be judged without loading them (`RefusesOne`).
-/

namespace AutomergeR

variable {H A P : Type} [LinearOrder H] [LinearOrder A] [ChangeHash H A P]

/-! ## A clash depends on the applied changes only -/

omit [LinearOrder A] in
theorem ChangeGraph.WF.le_seqForActor {g : ChangeGraph H A P} (hg : g.WF) {a : A} {n : ℕ} :
    n ≤ g.seqForActor a ↔ n = 0 ∨ ∃ c : Change H A P, c.hash ∈ g.hashes ∧ c.actor = a ∧ c.seq = n := by
  rcases Nat.eq_zero_or_pos n with rfl | hn
  · exact iff_of_true (Nat.zero_le _) (Or.inl rfl)
  · constructor
    · intro hle
      obtain ⟨c, hc, ha, hs⟩ := hg.indexed.exists_seq hn hle
      exact Or.inr ⟨c, ChangeGraph.hash_mem_hashes.mpr hc, ha, hs⟩
    · rintro (rfl | ⟨c, hc, rfl, rfl⟩)
      · exact Nat.zero_le _
      · exact (hg.indexed.seq_le (ChangeGraph.hash_mem_hashes.mp hc)).2

namespace Automerge

omit [LinearOrder A] in
theorem clashesWith_congr {g g' : ChangeGraph H A P} (hg : g.WF) (hg' : g'.WF)
    (h : ∀ x, x ∈ g.hashes ↔ x ∈ g'.hashes) : ∀ (changes : List (Change H A P)) (known : Set H),
    ClashesWith g known changes ↔ ClashesWith g' known changes
  | [], _ => Iff.rfl
  | c :: changes, known => by
    rw [ClashesWith, ClashesWith, clashesWith_congr hg hg' h changes, hg.le_seqForActor,
      hg'.le_seqForActor]
    simp only [h]

variable {M : OpSetModel H A P} {fmt : ChunkFormat H A P} {doc doc' e e' : Automerge M}
  {data v : List UInt8} {vs : List (List UInt8)}

/-! ## What is read and what is refused -/

variable (fmt) in
/-- The changes that a load which is not refused reads. An empty document takes over the
first chunk's document, and the changes only if nothing is malformed; any other one takes
the changes up to the first malformed chunk. -/
def reads (doc : Automerge M) (data : List UInt8) : List (Change H A P) :=
  if doc.isEmpty then
    match fmt.parse data with
    | none => []
    | some (chunk, rest) =>
      match loadFirstChunk M doc.actor chunk.body with
      | none => []
      | some (doc₀, changes) =>
        match fmt.loadChanges doc₀.changeGraph rest [] with
        | .complete loaded => doc₀.changeGraph.changes ++ (changes ++ loaded)
        | .partialLoad _ _ => doc₀.changeGraph.changes
  else (fmt.loadChanges doc.changeGraph data []).changes

variable (fmt) in
/-- The first chunk is malformed: it does not parse, its checksum is wrong, its columns do
not decode, or it is a document whose heads are not those of its graph. -/
def FirstChunkMalformed (M : OpSetModel H A P) (actor : A) (data : List UInt8) : Prop :=
  data ≠ [] ∧ ∀ chunk rest, fmt.parse data = some (chunk, rest) →
    chunk.checksumValid = true → loadFirstChunk M actor chunk.body = none

variable (fmt) in
/-- The load of the data into the document is refused. An empty document looks at the
first chunk, and then at all changes or none; any other one at the changes up to the
first malformed chunk. -/
inductive Refuses (doc : Automerge M) (data : List UInt8) : Prop
  | firstChunk (hempty : doc.isEmpty = true) (h : FirstChunkMalformed fmt M doc.actor data)
  | allChanges (hempty : doc.isEmpty = true) {chunk : Chunk H A P} {rest : List UInt8}
      {doc₀ : Automerge M} {changes loaded : List (Change H A P)}
      (hparse : fmt.parse data = some (chunk, rest)) (hsum : chunk.checksumValid = true)
      (hfirst : loadFirstChunk M doc.actor chunk.body = some (doc₀, changes))
      (hload : fmt.loadChanges doc₀.changeGraph rest [] = .complete loaded)
      (h : doc₀.Clashes (changes ++ loaded))
  | someChanges (hempty : doc.isEmpty = false)
      (h : doc.Clashes (fmt.loadChanges doc.changeGraph data []).changes)

variable (fmt) in
/-- The document `e` has read the data where `doc` was before: it knows what is read of it
besides what `doc` knew, and has applied what has its whole past there. -/
structure HasRead (doc : Automerge M) (data : List UInt8) (e : Automerge M) : Prop where
  graph : e.changeGraph.WF
  actor : e.actor = doc.actor
  known : e.known = doc.known ∪ hashesOf (doc.reads fmt data)
  applied : e.applied = Causal.Core (Dep A P) e.known

/-! ## Loading into an empty document -/

theorem parse_nil (fmt : ChunkFormat H A P) : fmt.parse [] = none := by
  rw [Option.eq_none_iff_forall_not_mem]
  exact fun p hp => absurd (fmt.parse_shorter hp) (Nat.not_lt_zero _)

theorem firstChunk_cases (fmt : ChunkFormat H A P) (M : OpSetModel H A P) (actor : A)
    (data : List UInt8) : data = [] ∨ FirstChunkMalformed fmt M actor data ∨
      ∃ chunk rest doc₀ changes, fmt.parse data = some (chunk, rest) ∧
        chunk.checksumValid = true ∧ loadFirstChunk M actor chunk.body = some (doc₀, changes) := by
  by_cases hdata : data = []
  · exact Or.inl hdata
  by_cases hbad : FirstChunkMalformed fmt M actor data
  · exact Or.inr (Or.inl hbad)
  refine Or.inr (Or.inr ?_)
  simp only [FirstChunkMalformed, not_and, not_forall] at hbad
  obtain ⟨chunk, rest, hparse, hsum, hfirst⟩ := hbad hdata
  obtain ⟨⟨doc₀, changes⟩, hfirst⟩ := Option.ne_none_iff_exists'.mp hfirst
  exact ⟨chunk, rest, doc₀, changes, hparse, hsum, hfirst⟩

theorem loadIncremental_malformed (hempty : doc.isEmpty = true)
    (h : FirstChunkMalformed fmt M doc.actor data) :
    doc.loadIncremental fmt data = .error .load doc := by
  have hload : loadWithOptions fmt M doc.actor data = some (.error .load) := by
    rw [loadWithOptions, if_neg (by simpa using h.1)]
    rcases hparse : fmt.parse data with _ | ⟨⟨valid, body⟩, rest⟩
    · rfl
    · cases valid with
      | false => rfl
      | true => simp only [Bool.not_true, Bool.false_eq_true, if_false, h.2 _ _ hparse rfl]
  rw [loadIncremental_empty fmt hempty, hload]

section FirstChunk

variable {chunk : Chunk H A P} {rest : List UInt8} {doc₀ : Automerge M}
  {changes loaded : List (Change H A P)} (hempty : doc.isEmpty = true)
  (hparse : fmt.parse data = some (chunk, rest)) (hsum : chunk.checksumValid = true)
  (hfirst : loadFirstChunk M doc.actor chunk.body = some (doc₀, changes))

include hempty hparse

theorem reads_firstChunk : loadFirstChunk M doc.actor chunk.body = some (doc₀, changes) →
    doc.reads fmt data = match fmt.loadChanges doc₀.changeGraph rest [] with
      | .complete loaded => doc₀.changeGraph.changes ++ (changes ++ loaded)
      | .partialLoad _ _ => doc₀.changeGraph.changes := by
  intro hfirst
  rw [reads, if_pos hempty, hparse]
  simp only [hfirst]

include hsum hfirst

theorem loadIncremental_firstChunk : doc.loadIncremental fmt data =
    match fmt.loadChanges doc₀.changeGraph rest [] with
    | .complete loaded =>
      match doc₀.applyChanges (changes ++ loaded) with
      | .ok doc' => .ok doc'
      | .error e _ => .error e doc
      | .panic => .panic
    | .partialLoad _ _ => .ok doc₀ := by
  have hdata : data.isEmpty ≠ true := by
    rw [Ne, List.isEmpty_iff]
    rintro rfl
    rw [parse_nil] at hparse
    cases hparse
  rw [loadIncremental_empty fmt hempty, loadWithOptions, if_neg hdata, hparse]
  simp only [hsum, Bool.not_true, Bool.false_eq_true, if_false, hfirst]
  rcases fmt.loadChanges doc₀.changeGraph rest [] with loaded | _
  · dsimp only
    rcases doc₀.applyChanges (changes ++ loaded) with _ | _ | _ <;> rfl
  · rfl

/-- Only the changes behind a good first chunk are still to be refused. -/
theorem refuses_firstChunk : doc.Refuses fmt data ↔
    ∃ loaded, fmt.loadChanges doc₀.changeGraph rest [] = .complete loaded ∧
      doc₀.Clashes (changes ++ loaded) := by
  constructor
  · rintro (⟨-, -, hbad⟩ | ⟨-, hparse', -, hfirst', hload, hclash⟩ | ⟨he, -⟩)
    · rw [hbad _ _ hparse hsum] at hfirst
      cases hfirst
    · rw [hparse] at hparse'
      cases hparse'
      rw [hfirst] at hfirst'
      cases hfirst'
      exact ⟨_, hload, hclash⟩
    · rw [hempty] at he
      cases he
  · rintro ⟨loaded, hload, hclash⟩
    exact .allChanges hempty hparse hsum hfirst hload hclash

theorem firstChunk_refuses {err : Option (AutomergeError H A)}
    (h : doc.loadIncremental fmt data = .after err doc') :
    (err ≠ none ↔ doc.Refuses fmt data) ∧ (err = none → doc.HasRead fmt data doc') := by
  obtain ⟨hg, hactor, hqueue⟩ := loadFirstChunk_spec hfirst
  have hknown₀ : doc₀.known = hashesOf doc₀.changeGraph.changes := by
    rw [known, held, hqueue, hashesOf_nil, Set.union_empty, applied_eq_hashesOf]
  have hreads := reads_firstChunk hempty hparse hfirst
  rw [loadIncremental_firstChunk hempty hparse hsum hfirst] at h
  rw [refuses_firstChunk hempty hparse hsum hfirst]
  rcases hload : fmt.loadChanges doc₀.changeGraph rest [] with loaded | ⟨loaded, e⟩
  · rw [hload] at h hreads
    dsimp only at h hreads
    -- everything is applied to the document of the first chunk
    obtain ⟨doc₁, happ, hdoc⟩ : ∃ doc₁, doc₀.applyChanges (changes ++ loaded) = .after err doc₁ ∧
        (err = none → doc' = doc₁) := by
      rcases happ : doc₀.applyChanges (changes ++ loaded) with d | ⟨e, d⟩ | _
      · rw [happ] at h
        obtain ⟨rfl, rfl⟩ := Outcome.after_inj.mp (show Outcome.after none d = .after err doc' from h)
        exact ⟨d, rfl, fun _ => rfl⟩
      · rw [happ] at h
        obtain ⟨rfl, -⟩ :=
          Outcome.after_inj.mp (show Outcome.after (some e) doc = .after err doc' from h)
        exact ⟨d, rfl, fun h => by cases h⟩
      · rw [happ] at h
        exact absurd h Outcome.panic_ne_after
    obtain ⟨hg', hact, herr, hnone⟩ := applyChanges_receives hg happ
    refine ⟨herr.trans ⟨fun hclash => ⟨loaded, rfl, hclash⟩, ?_⟩, fun he => ?_⟩
    · rintro ⟨_, hload', hclash⟩
      cases hload'
      exact hclash
    · rw [hdoc he]
      refine ⟨hg', hact.trans hactor, ?_, (hnone he).2⟩
      rw [(hnone he).1, hreads, (known_of_isEmpty hempty).2, Set.empty_union, hknown₀]
      exact hashesOf_append.symm
  · rw [hload] at h hreads
    obtain ⟨rfl, rfl⟩ := Outcome.after_inj.mp (show Outcome.after none doc₀ = .after err doc' from h)
    refine ⟨iff_of_false (by simp) ?_, fun _ => ⟨hg, hactor, ?_, ?_⟩⟩
    · rintro ⟨_, hload', -⟩
      cases hload'
    · rw [hreads, (known_of_isEmpty hempty).2, Set.empty_union, hknown₀]
    · refine applied_eq_core hg fun c hc => ?_
      rw [hqueue] at hc
      cases hc

end FirstChunk

/-! ## The load -/

/-- **A load that comes back** is an error exactly if it is refused; if not, the document
has read the data. -/
theorem loadIncremental_refuses {err : Option (AutomergeError H A)} (hg : doc.changeGraph.WF)
    (h : doc.loadIncremental fmt data = .after err doc') :
    (err ≠ none ↔ doc.Refuses fmt data) ∧ (err = none → doc.HasRead fmt data doc') := by
  cases hempty : doc.isEmpty with
  | false =>
    rw [loadIncremental_of_nonempty fmt hempty] at h
    obtain ⟨hg', hact, herr, hnone⟩ := applyChanges_receives hg h
    refine ⟨herr.trans ⟨.someChanges hempty, ?_⟩, fun he => ⟨hg', hact, ?_, (hnone he).2⟩⟩
    · rintro (⟨he, -⟩ | ⟨he, -⟩ | ⟨-, hclash⟩)
      · exact absurd (he.symm.trans hempty) (by simp)
      · exact absurd (he.symm.trans hempty) (by simp)
      · exact hclash
    · rw [(hnone he).1, reads, hempty]
      rfl
  | true =>
    rcases firstChunk_cases fmt M doc.actor data with rfl | hbad |
      ⟨chunk, rest, doc₀, changes, hparse, hsum, hfirst⟩
    · -- no bytes at all
      have hload : doc.loadIncremental fmt [] = .after none (.new M doc.actor) :=
        loadIncremental_empty fmt hempty []
      obtain ⟨rfl, rfl⟩ := Outcome.after_inj.mp (hload.symm.trans h)
      refine ⟨iff_of_false (by simp) ?_, fun _ => ⟨ChangeGraph.wf_new, rfl, ?_, ?_⟩⟩
      · rintro (⟨-, hne, -⟩ | ⟨-, hparse, -⟩ | ⟨he, -⟩)
        · exact hne rfl
        · exact absurd (fmt.parse_shorter hparse) (Nat.not_lt_zero _)
        · exact absurd (he.symm.trans hempty) (by simp)
      · rw [(known_of_isEmpty hempty).2, reads, if_pos hempty, parse_nil, hashesOf_nil,
          Set.union_empty]
        exact (show (Automerge.new M doc.actor).known = ∅ from (known_of_isEmpty rfl).2)
      · exact applied_eq_core ChangeGraph.wf_new fun c hc => by cases hc
    · rw [loadIncremental_malformed hempty hbad] at h
      obtain ⟨rfl, -⟩ :=
        Outcome.after_inj.mp (show Outcome.after (some .load) doc = .after err doc' from h)
      exact ⟨iff_of_true (by simp) (.firstChunk hempty hbad), fun h => by cases h⟩
    · exact firstChunk_refuses hempty hparse hsum hfirst h

/-- Nothing of a sequence of well-formed chunks is passed over. -/
theorem reads_of_chunks (hg : doc.changeGraph.WF) {cs : List (Change H A P)}
    (h : fmt.Chunks data cs) : hashesOf cs ⊆ doc.known ∪ hashesOf (doc.reads fmt data) := by
  rintro _ ⟨c, hc, rfl⟩
  cases hempty : doc.isEmpty with
  | false =>
    obtain ⟨loaded, hload, hall⟩ := ChunkFormat.loadChanges_of_chunks hg h []
    rw [reads, hempty, hload]
    exact (hall c hc).elim (fun hc => Or.inr (mem_hashesOf.mpr hc)) fun hc => Or.inl (Or.inl hc)
  | true =>
    cases h with
    | nil => cases hc
    | @cons _ rest chunk cs₀ cs₁ hparse hcontents hrest =>
      obtain ⟨valid, body⟩ := chunk
      cases valid with
      | false => cases hcontents
      | true =>
        obtain ⟨doc₀, changes, hfirst, hin⟩ := loadFirstChunk_of_contents M doc.actor hcontents
        obtain ⟨loaded, hload, hall⟩ :=
          ChunkFormat.loadChanges_of_chunks (loadFirstChunk_spec hfirst).1 hrest []
        rw [reads_firstChunk hempty hparse hfirst, hload]
        refine Or.inr (mem_hashesOf.mpr ?_)
        rw [List.nil_append, List.mem_append, List.mem_append]
        rcases List.mem_append.mp hc with hc | hc
        · exact (hin c hc).elim (fun hc => Or.inr (Or.inl hc)) Or.inl
        · exact (hall c hc).elim (fun hc => Or.inr (Or.inr hc)) fun hc =>
            Or.inl (ChangeGraph.hash_mem_hashes.mp hc)

/-! ## Where the document stands -/

/-- The documents know and have applied the same changes, for the same actor. -/
structure SameStanding (doc e : Automerge M) : Prop where
  graph : doc.changeGraph.WF
  graph' : e.changeGraph.WF
  actor : doc.actor = e.actor
  known : doc.known = e.known
  applied : doc.applied = e.applied

omit [LinearOrder A] in
theorem SameStanding.symm (h : doc.SameStanding e) : e.SameStanding doc :=
  ⟨h.graph', h.graph, h.actor.symm, h.known.symm, h.applied.symm⟩

/-- What has read the same, after the same, stands the same. -/
theorem HasRead.sameStanding (h : doc.HasRead fmt data e) (h' : doc.HasRead fmt data e') :
    e.SameStanding e' := by
  have hknown : e.known = e'.known := h.known.trans h'.known.symm
  exact ⟨h.graph, h'.graph, h.actor.trans h'.actor.symm, hknown,
    by rw [h.applied, h'.applied, hknown]⟩

namespace SameStanding

omit [LinearOrder A] in
theorem hasChange (h : doc.SameStanding e) : doc.changeGraph.hasChange = e.changeGraph.hasChange := by
  funext x
  rw [Bool.eq_iff_iff, ChangeGraph.hasChange_iff, ChangeGraph.hasChange_iff]
  exact Set.ext_iff.mp h.applied x

omit [LinearOrder A] in
theorem isEmpty (h : doc.SameStanding e) : doc.isEmpty = e.isEmpty := by
  have hiff : ∀ d : Automerge M, d.isEmpty = true ↔ d.known = ∅ := by
    intro d
    refine ⟨fun hd => (known_of_isEmpty hd).2, fun hd => isEmpty_iff.mpr ?_⟩
    have hnone : ∀ x, x ∉ d.known := fun x => hd ▸ Set.notMem_empty x
    constructor
    · rw [List.eq_nil_iff_forall_not_mem]
      intro nd hnd
      exact hnone nd.change.hash (Or.inl (ChangeGraph.hash_mem_hashes.mpr (List.mem_map_of_mem hnd)))
    · rw [List.eq_nil_iff_forall_not_mem]
      exact fun c hc => hnone c.hash (Or.inr (mem_hashesOf.mpr hc))
  rw [Bool.eq_iff_iff, hiff, hiff, h.known]

theorem reads (h : doc.SameStanding e) (fmt : ChunkFormat H A P) (data : List UInt8) :
    doc.reads fmt data = e.reads fmt data := by
  rw [Automerge.reads, Automerge.reads, h.isEmpty, h.actor,
    ChunkFormat.loadChanges_congr h.hasChange]

omit [LinearOrder A] in
theorem clashes (h : doc.SameStanding e) (changes : List (Change H A P)) :
    doc.Clashes changes ↔ e.Clashes changes := by
  rw [Clashes, Clashes, h.known]
  exact clashesWith_congr h.graph h.graph' (Set.ext_iff.mp h.applied) changes _

theorem refuses (h : doc.SameStanding e) (hr : doc.Refuses fmt data) : e.Refuses fmt data := by
  cases hr with
  | firstChunk hempty hbad => exact .firstChunk (h.isEmpty ▸ hempty) (h.actor ▸ hbad)
  | allChanges hempty hparse hsum hfirst hload hclash =>
    exact .allChanges (h.isEmpty ▸ hempty) hparse hsum (h.actor ▸ hfirst) hload hclash
  | someChanges hempty hclash =>
    refine .someChanges (h.isEmpty ▸ hempty) ?_
    rw [← ChunkFormat.loadChanges_congr h.hasChange, ← h.clashes]
    exact hclash

end SameStanding

/-! ## Vectors one after the other -/

variable (fmt) in
/-- One of the vectors is refused by a document that has read those before it. -/
inductive RefusesOne : Automerge M → List (List UInt8) → Prop
  | here {doc : Automerge M} {v : List UInt8} {vs : List (List UInt8)}
      (h : doc.Refuses fmt v) : RefusesOne doc (v :: vs)
  | later {doc e : Automerge M} {v : List UInt8} {vs : List (List UInt8)}
      (hv : doc.HasRead fmt v e) (hrest : RefusesOne e vs) : RefusesOne doc (v :: vs)

theorem RefusesOne.congr (h : doc.SameStanding e) (hr : doc.RefusesOne fmt vs) :
    e.RefusesOne fmt vs := by
  cases hr with
  | here hr => exact .here (h.refuses hr)
  | later hv hrest =>
    refine .later ⟨hv.graph, hv.actor.trans h.actor, ?_, hv.applied⟩ hrest
    rw [hv.known, h.known, h.reads]

/-- A vector that is read leaves it to the others. -/
theorem refusesOne_cons (hno : ¬ doc.Refuses fmt v) (hv : doc.HasRead fmt v doc') :
    doc.RefusesOne fmt (v :: vs) ↔ doc'.RefusesOne fmt vs := by
  refine ⟨fun hr => ?_, .later hv⟩
  cases hr with
  | here hr => exact absurd hr hno
  | later he hrest => exact hrest.congr (he.sameStanding hv)

end Automerge

end AutomergeR
