import AutomergeR.LoadIncremental

/-! # `am_apply_changes` on changes

A list of change vectors, loaded one after the other: whatever the order, the
repetitions and the path each vector takes, the document has received exactly those
changes (`applyChanges_rawBytes`), and has applied what their dependencies allow
(`Takes.applied_eq`).
-/

namespace AutomergeR

variable {H A P : Type} [LinearOrder H] [LinearOrder A] [ChangeHash H A P]
  {M : OpSetModel H A P}

namespace Automerge

variable {doc doc' doc'' : Automerge M}

omit [LinearOrder A] in
theorem Takes.trans {S T : Set H} (h : doc.Takes doc' S) (h' : doc'.Takes doc'' T) :
    doc.Takes doc'' (S ∪ T) :=
  ⟨h'.wf, h'.settled, h'.actor.trans h.actor, h.applied.trans h'.applied, by
    rw [h'.known, h.known, Set.union_assoc]⟩

omit [LinearOrder A] in
/-- What is applied is what the received changes allow. -/
theorem Takes.applied_eq {S : Set H} (h : doc.Takes doc' S) :
    doc'.applied = Causal.Core (Dep A P) (doc.known ∪ S) := by
  rw [applied_eq_core h.wf.graph h.settled, h.known]

omit [LinearOrder A] in
/-- A closed set of received changes is applied. -/
theorem Takes.subset_applied {S T : Set H} (h : doc.Takes doc' S)
    (hT : Causal.Closed (Dep A P) T) (hsub : T ⊆ doc.known ∪ S) : T ⊆ doc'.applied := by
  rw [h.applied_eq]
  exact hT.subset_core hsub

omit [LinearOrder H] [LinearOrder A] in
/-- The changes a document has received, one way or the other. -/
theorem noClash_known {S : Set (Change H A P)}
    (h : NoClash {c : Change H A P | c.hash ∈ doc.known ∨ c ∈ S}) :
    NoClash {c | c ∈ doc.changeGraph.changes ∨ c ∈ doc.queue ∨ c ∈ S} := by
  refine h.mono fun c hc => ?_
  rcases hc with hc | hc | hc
  · exact Or.inl (Or.inl (ChangeGraph.hash_mem_hashes.mpr hc))
  · exact Or.inl (Or.inr (mem_hashesOf.mpr hc))
  · exact Or.inr hc

end Automerge

namespace AutoCommit

variable (fmt : ChunkFormat H A P) {doc : Automerge M}

/-- **Change vectors that do not clash** are all taken in, if what only the patch log has
comes behind the actors of all changes. -/
theorem applyChanges_rawBytes {S : Set A} : ∀ (cs : List (Change H A P)) (doc : Automerge M)
    (log : PatchLog A) (i : ℕ), doc.WF → log.Follows doc.actors S → cs ≠ [] →
    (∀ c : Change H A P, c.hash ∈ doc.known ∨ c ∈ cs → c.actor ∈ S) →
    (∀ c ∈ cs, c.Honest) → NoClash {c : Change H A P | c.hash ∈ doc.known ∨ c ∈ cs} →
    ∃ doc' log', (closed doc log).applyChanges fmt i (cs.map fmt.rawBytes) =
        .ok (closed doc' log') ∧ doc.actors ⊆ doc'.actors ∧
          log'.actors ⊆ log.actors ∪ doc'.actors ∧ doc.Takes doc' (hashesOf cs)
  | c :: cs, doc, log, i, h, hlog, _, hall, hh, hclash => by
    obtain ⟨hspec, htotal⟩ := Automerge.loadIncremental_rawBytes fmt h [c]
      fun b hb => hh b (by rw [List.mem_singleton.mp hb]; exact List.mem_cons_self)
    simp only [List.flatMap_singleton] at hspec htotal
    have hsingle : ∀ b, b ∈ [c] → b ∈ c :: cs := fun b hb => by
      rw [List.mem_singleton.mp hb]
      exact List.mem_cons_self
    obtain ⟨doc₁, h₁⟩ := htotal (Automerge.noClash_known (S := {b | b ∈ [c]})
      (hclash.mono fun b hb => hb.imp id (hsingle b)))
    have htakes := hspec doc₁ h₁
    -- what is known then is known or received now
    have hrest : ∀ b : Change H A P, b.hash ∈ doc₁.known ∨ b ∈ cs →
        b.hash ∈ doc.known ∨ b ∈ c :: cs := by
      rintro b (hb | hb)
      · rw [htakes.known] at hb
        exact hb.imp id fun hb => hsingle b (mem_hashesOf.mp hb)
      · exact Or.inr (List.mem_cons_of_mem _ hb)
    obtain ⟨hmono, log₁, hlogged, hsub⟩ := Automerge.loadIncrementalLogPatches_of_follows h.graph hlog
      (fun a ha => by
        obtain ⟨b, hb, rfl⟩ := (Automerge.mem_actors htakes.wf.graph).mp ha
        exact hall b (hrest b (Or.inl (Or.inl (ChangeGraph.hash_mem_hashes.mpr hb)))))
      (show doc.loadIncremental fmt (fmt.rawBytes c) = Outcome.after none doc₁ from h₁)
    have hload : (closed doc log).loadIncremental fmt (fmt.rawBytes c) = .ok (closed doc₁ log₁) := by
      rw [loadIncremental, ensureTransactionClosed_closed]
      exact congrArg (Outcome.map _) hlogged
    rw [List.map_cons, applyChanges, hload]
    have hcons : hashesOf (c :: cs) = hashesOf [c] ∪ hashesOf cs := by
      rw [← hashesOf_append]
      rfl
    by_cases hcs : cs = []
    · subst hcs
      exact ⟨doc₁, log₁, rfl, hmono, hsub, htakes⟩
    · obtain ⟨doc', log', hdoc', hmono', hsub', htakes'⟩ := applyChanges_rawBytes cs doc₁ log₁ (i + 1)
        htakes.wf (hlog.mono hsub hmono) hcs (fun b hb => hall b (hrest b hb))
        (fun b hb => hh b (List.mem_cons_of_mem _ hb)) (hclash.mono fun b hb => hrest b hb)
      refine ⟨doc', log', hdoc', hmono.trans hmono', hsub'.trans ?_, hcons ▸ htakes.trans htakes'⟩
      exact Finset.union_subset (hsub.trans (Finset.union_subset_union_right hmono'))
        Finset.subset_union_right

/-- The first vector is loaded after the open transaction is committed. -/
theorem amApplyChanges_of_closed {d : AutoCommit M} (h : d.ensureTransactionClosed = some doc)
    {vs : List (List UInt8)} (hvs : vs ≠ []) :
    d.amApplyChanges fmt vs = (closed doc d.patchLog).amApplyChanges fmt vs := by
  rcases vs with _ | ⟨v, vs⟩
  · exact absurd rfl hvs
  · simp [amApplyChanges, applyChanges, loadIncremental, h]

end AutoCommit

end AutomergeR
