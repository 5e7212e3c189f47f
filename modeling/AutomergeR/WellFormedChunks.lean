import AutomergeR.LoadIncremental

/-! # Well-formed chunks

`Chunks` says what a sequence of well-formed chunks holds. Every reader goes through it to
its end and passes over no change but known ones (`loadChanges_of_chunks`,
`loadFirstChunk_of_contents`). What is read otherwise depends on the document only through
the changes it has applied (`loadChanges_congr`).
-/

namespace AutomergeR

variable {H A P : Type} [LinearOrder H] [LinearOrder A] [ChangeHash H A P]

namespace ChunkFormat

variable (fmt : ChunkFormat H A P)

/-- The changes in a well-formed chunk: its checksum is valid, its columns decode, and
the graph of a document comes together and has the heads the chunk names. -/
def contents (chunk : Chunk H A P) : Option (List (Change H A P)) :=
  if chunk.checksumValid then
    match chunk.body with
    | .document heads changes =>
      changes.filter fun cs => (reconstructGraph cs).any (·.heads = heads.toFinset)
    | .change c | .compressedChange c => c.map ([·])
    | .bundle changes => changes
  else none

theorem contents_document {heads : List H} {changes : Option (List (Change H A P))}
    {cs : List (Change H A P)} (h : contents ⟨true, .document heads changes⟩ = some cs) :
    changes = some cs ∧ ∃ g, reconstructGraph cs = some g ∧ g.heads = heads.toFinset := by
  have h : changes.filter (fun cs => (reconstructGraph cs).any (·.heads = heads.toFinset)) =
    some cs := h
  obtain ⟨hch, hany⟩ := Option.filter_eq_some_iff.mp h
  exact ⟨hch, by simpa [Option.any_eq_true] using hany⟩

/-- The data is a sequence of well-formed chunks, which hold these changes. -/
inductive Chunks : List UInt8 → List (Change H A P) → Prop
  | nil : Chunks [] []
  | cons {data rest : List UInt8} {chunk : Chunk H A P} {cs changes : List (Change H A P)}
      (hparse : fmt.parse data = some (chunk, rest)) (hcontents : contents chunk = some cs)
      (hrest : Chunks rest changes) : Chunks data (cs ++ changes)

variable {fmt}

/-- A closed history that has the heads of a document has its changes. -/
theorem known_of_heads {current g : ChangeGraph H A P} (hg : current.WF)
    {cs : List (Change H A P)} {heads : List H} (hrec : reconstructGraph cs = some g)
    (hheads : g.heads = heads.toFinset) (hall : ∀ x ∈ heads, x ∈ current.hashes) :
    ∀ c ∈ cs, c.hash ∈ current.hashes := by
  obtain ⟨hwf, hch⟩ := reconstructGraph_wf cs .new g ChangeGraph.wf_new hrec
  have hch : g.changes = cs := hch
  have hsub : {x | x ∈ g.hashes} ⊆ {x | x ∈ current.hashes} := by
    apply Causal.subset_of_heads_subset (dep_wellFounded (A := A) (P := P))
      (List.finite_toSet g.hashes) hg.closed
    rintro x ⟨hx, hmax⟩
    apply hall x
    rw [← List.mem_toFinset, ← hheads, hwf.mem_heads]
    exact ⟨hx, fun c hc hdep => hmax c.hash (ChangeGraph.hash_mem_hashes.mpr hc)
      (dep_hash.mpr hdep)⟩
  intro c hc
  exact hsub (ChangeGraph.hash_mem_hashes.mpr (hch.symm ▸ hc))

/-- A well-formed chunk is taken in, or skipped where all its changes are known. -/
theorem loadNextChange_of_contents {current : ChangeGraph H A P} (hg : current.WF)
    {data rest : List UInt8} {chunk : Chunk H A P} {cs : List (Change H A P)}
    (hparse : fmt.parse data = some (chunk, rest)) (hcontents : contents chunk = some cs) :
    ∃ loaded, fmt.loadNextChange current data = .ok (loaded, rest) ∧
      ∀ c ∈ cs, c ∈ loaded ∨ c.hash ∈ current.hashes := by
  obtain ⟨valid, body⟩ := chunk
  unfold loadNextChange
  rw [hparse]
  cases valid with
  | false => cases hcontents
  | true =>
    cases body with
    | document heads changes =>
      obtain ⟨hch, g, hrec, hheads⟩ := contents_document hcontents
      by_cases hall : heads.all current.hasChange = true
      · refine ⟨[], ?_, fun c hc => Or.inr ?_⟩
        · dsimp only
          rw [if_neg (by simp), if_pos hall]
        · exact known_of_heads hg hrec hheads
            (fun x hx => ChangeGraph.hasChange_iff.mp (List.all_eq_true.mp hall x hx)) c hc
      · refine ⟨cs, ?_, fun c hc => Or.inl hc⟩
        dsimp only
        rw [if_neg (by simp), if_neg hall, hch]
        simp [Option.filter, hrec]
    | change c =>
      cases c with
      | none => cases hcontents
      | some c =>
        cases hcontents
        exact ⟨[c], rfl, fun b hb => Or.inl hb⟩
    | bundle changes =>
      cases changes with
      | none => cases hcontents
      | some changes =>
        cases hcontents
        exact ⟨cs, rfl, fun c hc => Or.inl hc⟩
    | compressedChange c =>
      cases c with
      | none => cases hcontents
      | some c =>
        cases hcontents
        exact ⟨[c], rfl, fun b hb => Or.inl hb⟩

/-- A sequence of well-formed chunks is read to its end. -/
theorem loadChanges_of_chunks {current : ChangeGraph H A P} (hg : current.WF)
    {data : List UInt8} {cs : List (Change H A P)} (h : fmt.Chunks data cs) :
    ∀ acc, ∃ loaded, fmt.loadChanges current data acc = .complete (acc ++ loaded) ∧
      ∀ c ∈ cs, c ∈ loaded ∨ c.hash ∈ current.hashes := by
  induction h with
  | nil =>
    intro acc
    refine ⟨[], ?_, fun c hc => absurd hc List.not_mem_nil⟩
    rw [loadChanges_nil, List.append_nil]
  | @cons data rest chunk cs changes hparse hcontents _ ih =>
    intro acc
    obtain ⟨loaded, hnext, hcs⟩ := loadNextChange_of_contents hg hparse hcontents
    obtain ⟨loaded', hrest, hchanges⟩ := ih (acc ++ loaded)
    refine ⟨loaded ++ loaded', ?_, fun c hc => ?_⟩
    · have hdata : data ≠ [] := by
        rintro rfl
        exact absurd (fmt.parse_shorter hparse) (Nat.not_lt_zero _)
      rw [fmt.loadChanges_next hnext hdata, hrest, List.append_assoc]
    · rcases List.mem_append.mp hc with hc | hc
      · exact (hcs c hc).imp (List.mem_append_left _) id
      · exact (hchanges c hc).imp (List.mem_append_right _) id

/-- What is read depends on the applied changes, not on how the graph keeps them. -/
theorem loadChanges_congr {current current' : ChangeGraph H A P}
    (h : current.hasChange = current'.hasChange) (data : List UInt8)
    (acc : List (Change H A P)) :
    fmt.loadChanges current data acc = fmt.loadChanges current' data acc := by
  have hnext : ∀ data, fmt.loadNextChange current data = fmt.loadNextChange current' data := by
    intro data
    unfold loadNextChange
    rw [h]
  induction hlen : data.length using Nat.strong_induction_on generalizing data acc with
  | _ n ih =>
    subst hlen
    by_cases hdata : data = []
    · rw [hdata, loadChanges_nil, loadChanges_nil]
    · cases hread : fmt.loadNextChange current data with
      | error e => rw [fmt.loadChanges_error hread hdata,
          fmt.loadChanges_error (hnext data ▸ hread) hdata]
      | ok p =>
        obtain ⟨cs, rest⟩ := p
        rw [fmt.loadChanges_next hread hdata, fmt.loadChanges_next (hnext data ▸ hread) hdata]
        exact ih _ (fmt.loadNextChange_shorter hread) rest _ rfl

end ChunkFormat

namespace Automerge

variable {M : OpSetModel H A P} {fmt : ChunkFormat H A P}

/-- A well-formed first chunk is in the document it gives, or among the changes still to be
applied. -/
theorem loadFirstChunk_of_contents (M : OpSetModel H A P) (actor : A) {body : ChunkBody H A P}
    {cs : List (Change H A P)} (h : ChunkFormat.contents ⟨true, body⟩ = some cs) :
    ∃ doc changes, loadFirstChunk M actor body = some (doc, changes) ∧
      ∀ c ∈ cs, c ∈ changes ∨ c ∈ doc.changeGraph.changes := by
  cases body with
  | document heads decoded =>
    obtain ⟨rfl, g, hrec, hheads⟩ := ChunkFormat.contents_document h
    obtain ⟨-, hch⟩ := reconstructGraph_wf cs .new g ChangeGraph.wf_new hrec
    have hch : g.changes = cs := hch
    simp only [loadFirstChunk, reconstructDocument, hrec, Option.bind_eq_bind, Option.bind_some,
      hheads, if_true]
    exact ⟨_, _, rfl, fun c hc => Or.inr (hch.symm ▸ hc)⟩
  | change c =>
    obtain ⟨c, rfl, rfl⟩ := Option.map_eq_some_iff.mp h
    exact ⟨_, _, rfl, fun b hb => Or.inl hb⟩
  | bundle decoded =>
    obtain rfl : decoded = some cs := h
    exact ⟨_, _, rfl, fun b hb => Or.inl hb⟩
  | compressedChange c =>
    obtain ⟨c, rfl, rfl⟩ := Option.map_eq_some_iff.mp h
    exact ⟨_, _, rfl, fun b hb => Or.inl hb⟩

/-- The document a first chunk gives: it has applied all it knows. -/
theorem loadFirstChunk_spec {actor : A} {body : ChunkBody H A P} {doc : Automerge M}
    {changes : List (Change H A P)} (h : loadFirstChunk M actor body = some (doc, changes)) :
    doc.changeGraph.WF ∧ doc.actor = actor ∧ doc.queue = [] := by
  cases body with
  | document heads decoded =>
    simp only [loadFirstChunk, Option.bind_eq_bind, Option.bind_eq_some_iff] at h
    obtain ⟨decoded, rfl, doc₀, hrec, h⟩ := h
    split at h
    · cases h
      simp only [reconstructDocument, Option.bind_eq_bind, Option.bind_eq_some_iff,
        Option.some.injEq] at hrec
      obtain ⟨g, hg, rfl⟩ := hrec
      exact ⟨(reconstructGraph_wf decoded .new g ChangeGraph.wf_new hg).1, rfl, rfl⟩
    · cases h
  | change c =>
    obtain ⟨c, rfl, h⟩ := Option.map_eq_some_iff.mp h
    cases h
    exact ⟨ChangeGraph.wf_new, rfl, rfl⟩
  | bundle decoded =>
    obtain ⟨decoded, rfl, h⟩ := Option.map_eq_some_iff.mp h
    cases h
    exact ⟨ChangeGraph.wf_new, rfl, rfl⟩
  | compressedChange c =>
    obtain ⟨c, rfl, h⟩ := Option.map_eq_some_iff.mp h
    cases h
    exact ⟨ChangeGraph.wf_new, rfl, rfl⟩

end Automerge

end AutomergeR
