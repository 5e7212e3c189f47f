import AutomergeR.ApplyRawChanges
import AutomergeR.ByteHash
import AutomergeR.RefusedLoads

/-! # Malformed changes

What `am_apply_changes` makes of bytes that are not a sequence of well-formed chunks. They
are to be refused, which the code does only where the bytes before a malformed chunk are
(`amApplyChanges_complete_iff`).
-/

namespace AutomergeR

variable {H A P : Type} [LinearOrder H] [LinearOrder A] [ChangeHash H A P]

namespace AutoCommit

variable {fmt : ChunkFormat H A P} {M : OpSetModel H A P}

theorem closed_wf {d : AutoCommit M} {doc : Automerge M} (hd : d.doc.changeGraph.WF)
    (h : d.ensureTransactionClosed = some doc) : doc.changeGraph.WF := by
  unfold ensureTransactionClosed at h
  split at h
  · cases h
    exact hd
  · exact (Automerge.updateHistory_known hd h).1

/-- A load that succeeds has read the vector, and one that is an error has refused it. -/
theorem loadIncremental_closed_cases {doc : Automerge M} (hg : doc.changeGraph.WF)
    (log : PatchLog A) (v : List UInt8) :
    (∃ doc' log', (closed doc log).loadIncremental fmt v = .ok (closed doc' log') ∧
        ¬ doc.Refuses fmt v ∧ doc.HasRead fmt v doc') ∨
      (∃ e d', (closed doc log).loadIncremental fmt v = .error e d' ∧ doc.Refuses fmt v) ∨
      (closed doc log).loadIncremental fmt v = .panic := by
  rw [loadIncremental, ensureTransactionClosed_closed, closed_patchLog]
  dsimp only
  rcases hload : doc.loadIncrementalLogPatches fmt log v with ⟨doc', log'⟩ | ⟨e, doc', log'⟩ | _
  · obtain ⟨herr, hread⟩ := Automerge.loadIncremental_refuses hg
      (Automerge.loadIncremental_of_logged
        (show doc.loadIncrementalLogPatches fmt log v = Outcome.after none (doc', log') from hload))
    exact Or.inl ⟨doc', log', rfl, fun hno => herr.mpr hno rfl, hread rfl⟩
  · obtain ⟨herr, -⟩ := Automerge.loadIncremental_refuses hg
      (Automerge.loadIncremental_of_logged
        (show doc.loadIncrementalLogPatches fmt log v = Outcome.after (some e) (doc', log')
          from hload))
    exact Or.inr (Or.inl ⟨e, _, rfl, herr.mp (by simp)⟩)
  · exact Or.inr (Or.inr rfl)

theorem applyChanges_append : ∀ (vs ws : List (List UInt8)) (d : AutoCommit M) (i : ℕ),
    d.applyChanges fmt i (vs ++ ws) =
      match d.applyChanges fmt i vs with
      | .ok d => d.applyChanges fmt (i + vs.length) ws
      | .failedToApply j e d => .failedToApply j e d
      | .panic => .panic
  | [], ws, d, i => rfl
  | v :: vs, ws, d, i => by
    rw [List.cons_append, applyChanges, applyChanges]
    rcases d.loadIncremental fmt v with d' | ⟨e, d'⟩ | _
    · dsimp only
      rw [applyChanges_append vs ws d' (i + 1), List.length_cons, Nat.add_right_comm, Nat.add_assoc]
    · rfl
    · rfl

theorem applyChanges_ok_iff : ∀ (vs : List (List UInt8)) (doc : Automerge M) (log : PatchLog A)
    (i : ℕ), doc.changeGraph.WF → (closed doc log).applyChanges fmt i vs ≠ .panic →
      ((∃ d', (closed doc log).applyChanges fmt i vs = .ok d') ↔ ¬ doc.RefusesOne fmt vs)
  | [], doc, log, i, _, _ => by
    refine iff_of_true ⟨closed doc log, rfl⟩ ?_
    rintro ⟨⟩
  | v :: vs, doc, log, i, hg, hpanic => by
    rw [applyChanges] at hpanic ⊢
    rcases loadIncremental_closed_cases hg log v with ⟨doc', log', hload, hno, hread⟩ |
      ⟨e, d', hload, hrefuses⟩ | hload
    · rw [hload] at hpanic ⊢
      rw [Automerge.refusesOne_cons hno hread]
      exact applyChanges_ok_iff vs doc' log' (i + 1) hread.graph hpanic
    · rw [hload]
      exact iff_of_false (by rintro ⟨d', h⟩; cases h) (not_not_intro (.here hrefuses))
    · rw [hload] at hpanic
      exact absurd rfl hpanic

/-- What a document knows after the call: its own changes, and those of every sequence of
well-formed chunks. -/
theorem applyChanges_known : ∀ (vs : List (List UInt8)) (doc : Automerge M) (log : PatchLog A)
    (i : ℕ), doc.changeGraph.WF → ∀ {d' : AutoCommit M},
      (closed doc log).applyChanges fmt i vs = .ok d' → doc.known ⊆ d'.doc.known ∧
        ∀ v ∈ vs, ∀ cs, fmt.Chunks v cs → hashesOf cs ⊆ d'.doc.known
  | [], doc, log, i, hg, d', h => by
    cases h
    exact ⟨subset_rfl, fun v hv => absurd hv List.not_mem_nil⟩
  | v :: vs, doc, log, i, hg, d', h => by
    rw [applyChanges] at h
    rcases loadIncremental_closed_cases hg log v with ⟨doc', log', hload, -, hread⟩ |
      ⟨e, d₁, hload, -⟩ | hload
    · rw [hload] at h
      obtain ⟨hsub, hvs⟩ := applyChanges_known vs doc' log' (i + 1) hread.graph h
      refine ⟨(hread.known ▸ Set.subset_union_left).trans hsub, fun w hw cs hcs => ?_⟩
      rcases List.mem_cons.mp hw with rfl | hw
      · exact ((Automerge.reads_of_chunks hg hcs).trans hread.known.ge).trans hsub
      · exact hvs w hw cs hcs
    · rw [hload] at h
      cases h
    · rw [hload] at h
      cases h

variable (fmt) in
/-- If the call returns, every vector is a sequence of chunks, and every change in it is applied or
held back. -/
def TakesAll (d : AutoCommit M) (vs : List (List UInt8)) : Prop :=
  ∀ d', d.amApplyChanges fmt vs = .ok d' →
    ∀ v ∈ vs, ∃ cs, fmt.Chunks v cs ∧ hashesOf cs ⊆ d'.doc.known

theorem takesAll_iff_of_ne_panic (d : AutoCommit M) (hd : d.doc.changeGraph.WF)
    (vs : List (List UInt8)) (hpanic : d.amApplyChanges fmt vs ≠ .panic) :
    d.TakesAll fmt vs ↔
      (∀ v ∈ vs, ∃ cs, fmt.Chunks v cs) ∨
        ∃ doc, d.ensureTransactionClosed = some doc ∧ doc.RefusesOne fmt vs := by
  by_cases hvs : vs = []
  · subst hvs
    exact iff_of_true (fun _ _ v hv => absurd hv List.not_mem_nil)
      (Or.inl fun v hv => absurd hv List.not_mem_nil)
  rcases hclosed : d.ensureTransactionClosed with _ | doc
  · obtain ⟨v, vs, rfl⟩ := List.exists_cons_of_ne_nil hvs
    simp [amApplyChanges, applyChanges, loadIncremental, hclosed] at hpanic
  · have hg := closed_wf hd hclosed
    have hrun : d.amApplyChanges fmt vs = (closed doc d.patchLog).applyChanges fmt 0 vs :=
      amApplyChanges_of_closed fmt hclosed hvs
    unfold TakesAll
    rw [hrun] at hpanic ⊢
    have hiff := applyChanges_ok_iff vs doc d.patchLog 0 hg hpanic
    constructor
    · intro h
      by_cases hrefuses : doc.RefusesOne fmt vs
      · exact Or.inr ⟨doc, rfl, hrefuses⟩
      · obtain ⟨d', hd'⟩ := hiff.mpr hrefuses
        refine Or.inl fun v hv => ?_
        obtain ⟨cs, hcs, -⟩ := h d' hd' v hv
        exact ⟨cs, hcs⟩
    · rintro (hall | ⟨_, hdoc, hrefuses⟩) d' hd' v hv
      · obtain ⟨cs, hcs⟩ := hall v hv
        exact ⟨cs, hcs, (applyChanges_known vs doc d.patchLog 0 hg hd').2 v hv cs hcs⟩
      · cases hdoc
        exact absurd hrefuses (hiff.mp ⟨d', hd'⟩)

/-- **`am_apply_changes` that returns** has read every vector to its end and has applied or
holds back every change in it, if every vector is a sequence of well-formed chunks or one is
refused, and only then: a malformed chunk on its own is no reason to raise an error, unless
it is the first that an empty document meets. (A call that ends R returns nothing, whatever the
vectors are.) -/
theorem amApplyChanges_complete_iff (d : AutoCommit M) (hd : d.doc.changeGraph.WF)
    (vs : List (List UInt8)) :
    ((∀ v ∈ vs, ∃ cs, fmt.Chunks v cs) ∨
          (∃ doc, d.ensureTransactionClosed = some doc ∧ doc.RefusesOne fmt vs) →
        d.TakesAll fmt vs) ∧
      (d.amApplyChanges fmt vs ≠ .panic → d.TakesAll fmt vs →
        (∀ v ∈ vs, ∃ cs, fmt.Chunks v cs) ∨
          ∃ doc, d.ensureTransactionClosed = some doc ∧ doc.RefusesOne fmt vs) := by
  refine ⟨fun h d' hd' => ?_, fun hpanic => (takesAll_iff_of_ne_panic d hd vs hpanic).mp⟩
  have hpanic : d.amApplyChanges fmt vs ≠ .panic := by
    rw [hd']
    exact fun heq => by cases heq
  exact (takesAll_iff_of_ne_panic d hd vs hpanic).mpr h d' hd'

end AutoCommit

/-- The empty document of actor 0. -/
def emptyDoc : AutoCommit (changeLog ByteHash ℕ ℕ) := .ofDoc (.new _ 0)

/-- The first change of actor 1. -/
def firstChange : Change ByteHash ℕ ℕ := ⟨1, 1, 1, [], [0]⟩

theorem firstChange_honest : firstChange.Honest := ⟨Nat.one_pos, fun h => absurd h (by decide)⟩

theorem not_chunks_seven : ¬ ∃ cs : List (Change ByteHash ℕ ℕ), byteFormat.Chunks [7] cs := by
  rintro ⟨cs, hcs⟩
  cases hcs with
  | cons hparse => cases hparse

/-- A second change, which has to wait for one of another actor. -/
def laterChange : Change ByteHash ℕ ℕ :=
  ⟨2, 1, 5, [(⟨9, 1, 1, [], [9]⟩ : Change ByteHash ℕ ℕ).hash], [0]⟩

theorem laterChange_honest : laterChange.Honest := ⟨Nat.one_pos, fun h => absurd h (by decide)⟩

/-- Well-formed vectors are taken in by an empty document. -/
theorem emptyDoc_takes (cs : List (Change ByteHash ℕ ℕ)) (hne : cs ≠ [])
    (hcs : ∀ c ∈ cs, c = firstChange ∨ c = laterChange) : ∃ doc log,
    emptyDoc.amApplyChanges byteFormat (cs.map byteFormat.rawBytes) = .ok (.closed doc log) ∧
      log.actors ⊆ doc.actors ∧ emptyDoc.doc.Takes doc (hashesOf cs) := by
  have hhonest : ∀ c ∈ cs, c.Honest := fun c hc => by
    rcases hcs c hc with rfl | rfl
    · exact firstChange_honest
    · exact laterChange_honest
  have hnone : emptyDoc.doc.known = ∅ := (Automerge.known_of_isEmpty rfl).2
  have hone : ∀ c : Change ByteHash ℕ ℕ, c.hash ∈ emptyDoc.doc.known ∨ c ∈ cs →
      c = firstChange ∨ c = laterChange := fun c hc =>
    hcs c (hc.resolve_left fun h => by rw [hnone] at h; exact h)
  have hclash : NoClash {c : Change ByteHash ℕ ℕ | c.hash ∈ emptyDoc.doc.known ∨ c ∈ cs} := by
    intro c hc d hd hactor _
    rcases hone c hc with rfl | rfl <;> rcases hone d hd with rfl | rfl
    · rfl
    · cases hactor
    · cases hactor
    · rfl
  obtain ⟨doc, log, hdoc, -, hlog, htakes⟩ := AutoCommit.applyChanges_rawBytes (S := Set.univ)
    byteFormat cs emptyDoc.doc .inactive 0 (Automerge.wf_new 0)
    (PatchLog.follows_of_subset (Finset.empty_subset _)) hne (fun _ _ => trivial) hhonest hclash
  exact ⟨doc, log, hdoc, hlog.trans (Finset.empty_union _).le, htakes⟩

/-- A chunk, and then a byte that is none: the second vector is dropped without a word. -/
theorem amApplyChanges_drops_malformed :
    (∃ d', emptyDoc.amApplyChanges byteFormat [byteFormat.rawBytes firstChange, [7]] = .ok d') ∧
      ¬ ∃ cs : List (Change ByteHash ℕ ℕ), byteFormat.Chunks [7] cs := by
  refine ⟨?_, not_chunks_seven⟩
  obtain ⟨doc₁, log₁, h₁, hlog₁, hwf₁, -, -, -, hknown⟩ :=
    emptyDoc_takes [firstChange] (by simp) (by simp)
  have hknown₁ : doc₁.known = {firstChange.hash} := by
    have hnone : emptyDoc.doc.known = ∅ := (Automerge.known_of_isEmpty rfl).2
    rw [hknown, hnone, hashesOf_cons, hashesOf_nil, Set.empty_union, insert_empty_eq]
  have hempty : doc₁.isEmpty = false := by
    rw [Bool.eq_false_iff]
    intro hempty
    rw [(Automerge.known_of_isEmpty hempty).2] at hknown₁
    exact Set.singleton_ne_empty _ hknown₁.symm
  -- the document is not empty any more: the byte is read as no change at all
  have hone : ∀ c, c ∈ doc₁.changeGraph.changes ∨ c ∈ doc₁.queue ∨
      c ∈ ([] : List (Change ByteHash ℕ ℕ)) → c = firstChange := by
    intro c hc
    have hmem : c.hash ∈ doc₁.known := by
      rcases hc with hc | hc | hc
      · exact Or.inl (ChangeGraph.hash_mem_hashes.mpr hc)
      · exact Or.inr (mem_hashesOf.mpr hc)
      · cases hc
    rw [hknown₁] at hmem
    exact Change.hash_inj hmem
  have hnone : ∀ c ∈ ([] : List (Change ByteHash ℕ ℕ)), c.Honest :=
    fun c hc => absurd hc List.not_mem_nil
  obtain ⟨doc₂, h₂⟩ := Automerge.applyChanges_total hwf₁ hnone (by
      intro c hc d hd _ _
      rw [hone c hc, hone d hd])
  have hload : doc₁.loadIncremental byteFormat [7] = Outcome.after none doc₂ := by
    have hread : byteFormat.loadNextChange doc₁.changeGraph [7] = .error .parse := rfl
    rw [Automerge.loadIncremental_of_nonempty byteFormat hempty,
      byteFormat.loadChanges_error hread (by simp)]
    exact h₂
  obtain ⟨log₂, hlogged, -⟩ :=
    Automerge.loadIncrementalLogPatches_of_subset hwf₁.graph hlog₁ hload
  refine ⟨.closed doc₂ log₂, ?_⟩
  have hsecond : (AutoCommit.closed doc₁ log₁).loadIncremental byteFormat [7] =
      .ok (.closed doc₂ log₂) := by
    rw [AutoCommit.loadIncremental, AutoCommit.ensureTransactionClosed_closed]
    exact congrArg (Outcome.map _) hlogged
  have happend : emptyDoc.applyChanges byteFormat 0 ([byteFormat.rawBytes firstChange] ++ [[7]]) = _ :=
    AutoCommit.applyChanges_append [byteFormat.rawBytes firstChange] [[7]] emptyDoc 0
  rw [show emptyDoc.applyChanges byteFormat 0 [byteFormat.rawBytes firstChange] = _ from h₁] at happend
  refine Eq.trans happend ?_
  simp only [AutoCommit.applyChanges, hsecond]

/-- Without it nothing is lost, whether a change can be applied or has to wait. -/
theorem amApplyChanges_complete_iff_chunks : ∃ d',
    emptyDoc.amApplyChanges byteFormat [byteFormat.rawBytes laterChange,
        byteFormat.rawBytes firstChange] = .ok d' ∧
      ∀ v ∈ [byteFormat.rawBytes laterChange, byteFormat.rawBytes firstChange],
        ∃ cs : List (Change ByteHash ℕ ℕ), byteFormat.Chunks v cs ∧
          hashesOf cs ⊆ d'.doc.known := by
  have hchunks : ∀ c : Change ByteHash ℕ ℕ, byteFormat.Chunks (byteFormat.rawBytes c) [c] := by
    intro c
    have hparse := byteFormat.parse_rawBytes c []
    rw [List.append_nil] at hparse
    exact .cons hparse rfl .nil
  obtain ⟨doc, log, hrun, -⟩ :=
    emptyDoc_takes [laterChange, firstChange] (by simp) (by simp)
  refine ⟨.closed doc log, hrun, ?_⟩
  refine (AutoCommit.amApplyChanges_complete_iff emptyDoc ChangeGraph.wf_new
    [byteFormat.rawBytes laterChange, byteFormat.rawBytes firstChange]).1 (Or.inl ?_) _ hrun
  intro v hv
  rcases List.mem_pair.mp hv with rfl | rfl
  · exact ⟨_, hchunks laterChange⟩
  · exact ⟨_, hchunks firstChange⟩

end AutomergeR
