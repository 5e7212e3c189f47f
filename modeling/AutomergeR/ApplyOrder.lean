import AutomergeR.AmSync
import AutomergeR.ApplyRawChanges

/-! # The order of delivery does not matter

Change vectors that do not clash, in any order, any number of times and over any number of
calls of `am_apply_changes`, leave a document with what their dependencies allow applied and
the rest held back (`amApplyCalls_order`). Hence the changes that a merge adds can as well be
taken with `am_get_changes_added` and applied one after the other (`amMerge_added`).
-/

namespace AutomergeR

open Automerge

variable {H A P : Type} [LinearOrder H] [LinearOrder A] [ChangeHash H A P]
  {M : OpSetModel H A P}

/-! ## Calls one after the other -/

/-- `am_apply_changes`, call after call. -/
def AutoCommit.amApplyCalls (fmt : ChunkFormat H A P) (d : AutoCommit M) :
    List (List (List UInt8)) → Option (AutoCommit M)
  | [] => some d
  | vs :: calls =>
    match d.amApplyChanges fmt vs with
    | .ok d => d.amApplyCalls fmt calls
    | _ => none

section

variable (fmt : ChunkFormat H A P)

/-- The calls go on where the first of them that has a vector leaves the document. -/
theorem amApplyCalls_takes {S : Set A} : ∀ (calls : List (List (Change H A P)))
    (doc : Automerge M) (log : PatchLog A), doc.WF → log.Follows doc.actors S →
    (∀ c : Change H A P, c.hash ∈ doc.known ∨ c ∈ calls.flatten → c.actor ∈ S) →
    (∀ c ∈ calls.flatten, c.Honest) → NoClash {c : Change H A P | c.hash ∈ doc.known ∨ c ∈ calls.flatten} →
    ∃ doc' log', (AutoCommit.closed doc log).amApplyCalls fmt (calls.map (·.map fmt.rawBytes)) =
        some (.closed doc' log') ∧
      (calls.flatten = [] ∧ doc' = doc ∨ doc.Takes doc' (hashesOf calls.flatten)) := by
  intro calls
  induction calls with
  | nil => exact fun doc log _ _ _ _ _ => ⟨doc, log, rfl, Or.inl ⟨rfl, rfl⟩⟩
  | cons cs calls ih =>
    intro doc log hwf hlog hall hh hclash
    by_cases hcs : cs = []
    · subst hcs
      exact ih doc log hwf hlog hall hh hclash
    · have hleft : ∀ c, c ∈ cs → c ∈ (cs :: calls).flatten := fun c hc => by
        rw [List.flatten_cons]
        exact List.mem_append_left _ hc
      have hright : ∀ c, c ∈ calls.flatten → c ∈ (cs :: calls).flatten := fun c hc => by
        rw [List.flatten_cons]
        exact List.mem_append_right _ hc
      obtain ⟨doc₁, log₁, h₁, hmono, hsub, htakes⟩ := AutoCommit.applyChanges_rawBytes fmt cs doc
        log 0 hwf hlog hcs (fun c hc => hall c (hc.imp id (hleft c))) (fun c hc => hh c (hleft c hc))
        (hclash.mono fun c hc => hc.imp id (hleft c))
      have hrest : ∀ c : Change H A P, c.hash ∈ doc₁.known ∨ c ∈ calls.flatten →
          c.hash ∈ doc.known ∨ c ∈ (cs :: calls).flatten := by
        rintro c (hc | hc)
        · rw [htakes.known] at hc
          exact hc.imp id fun hc => hleft c (mem_hashesOf.mp hc)
        · exact Or.inr (hright c hc)
      obtain ⟨doc', log', h', hrest⟩ := ih doc₁ log₁ htakes.wf (hlog.mono hsub hmono)
        (fun c hc => hall c (hrest c hc)) (fun c hc => hh c (hright c hc))
        (hclash.mono fun c hc => hrest c hc)
      refine ⟨doc', log', ?_, Or.inr ?_⟩
      · have hcall : (AutoCommit.closed doc log).amApplyChanges fmt (cs.map fmt.rawBytes) =
            .ok (.closed doc₁ log₁) := h₁
        rw [List.map_cons, AutoCommit.amApplyCalls, hcall]
        exact h'
      · rw [List.flatten_cons, hashesOf_append]
        rcases hrest with ⟨hnil, rfl⟩ | hrest
        · rwa [hnil, hashesOf_nil, Set.union_empty]
        · exact htakes.trans hrest

/-- The open transaction is committed by the first vector. -/
theorem amApplyCalls_of_closed {d : AutoCommit M} {doc : Automerge M}
    (h : d.ensureTransactionClosed = some doc) : ∀ calls : List (List (List UInt8)),
    calls.flatten ≠ [] →
      d.amApplyCalls fmt calls = (AutoCommit.closed doc d.patchLog).amApplyCalls fmt calls := by
  intro calls hne
  induction calls with
  | nil => exact absurd rfl hne
  | cons vs calls ih =>
    by_cases hvs : vs = []
    · subst hvs
      exact ih hne
    · rw [AutoCommit.amApplyCalls, AutoCommit.amApplyCalls,
        AutoCommit.amApplyChanges_of_closed fmt h hvs]

/-- **In whatever order** the changes of other documents come, with whatever repetitions and
over however many calls, every call succeeds, if the patch log fits. A change is applied in the end if and only if
it was received with its whole past; the rest is held back. So two such sequences with the
same changes leave the same changes applied, the same held back and the same heads. -/
theorem amApplyCalls_order {d : AutoCommit M} (hd : Reachable d) (hq : d.doc.queue = [])
    (hlog : d.LogFits)
    {calls calls' : List (List (Change H A P))}
    (hsource : ∀ c ∈ calls.flatten, ∃ o : AutoCommit M, Reachable o ∧ c ∈ o.doc.changeGraph.changes)
    (hclash : NoClash {c : Change H A P | c ∈ d.changes ∨ c ∈ calls.flatten})
    (hsame : ∀ c, c ∈ calls.flatten ↔ c ∈ calls'.flatten) :
    ∃ e e' doc doc', d.amApplyCalls fmt (calls.map (·.map fmt.rawBytes)) = some e ∧
      d.amApplyCalls fmt (calls'.map (·.map fmt.rawBytes)) = some e' ∧
      e.ensureTransactionClosed = some doc ∧ e'.ensureTransactionClosed = some doc' ∧
      (∀ c, c ∈ doc.changeGraph.changes ↔ (c ∈ d.changes ∨ c ∈ calls.flatten) ∧
        ∀ x, Causal.Anc (Dep A P) x c.hash → x ∈ hashesOf d.changes ∪ hashesOf calls.flatten) ∧
      (∀ c, c ∈ doc.changeGraph.changes ↔ c ∈ doc'.changeGraph.changes) ∧
      (∀ c, c ∈ doc.queue ↔ c ∈ doc'.queue) ∧ doc.getHeads = doc'.getHeads := by
  obtain ⟨doc₀, hclosed, hwf, hch, hqueue, happ⟩ :=
    exists_closed hd (AutoCommit.fresh_of_queue_nil hq)
  rw [hq] at hqueue
  have hknown : doc₀.known = hashesOf d.changes := by
    rw [known, held, hqueue, hashesOf_nil, Set.union_empty, happ]
  have hhash : hashesOf calls.flatten = hashesOf calls'.flatten := by
    ext x
    exact exists_congr fun c => and_congr_left fun _ => hsame c
  have hhonest : ∀ c ∈ calls.flatten, c.Honest := by
    intro c hc
    obtain ⟨o, ho, hco⟩ := hsource c hc
    exact ho.wf.1.honest c (Or.inl hco)
  have hclash₀ : NoClash {c : Change H A P | c.hash ∈ doc₀.known ∨ c ∈ calls.flatten} :=
    hclash.mono fun c hc => by
      rw [Set.mem_ofPred_eq, hknown, mem_hashesOf] at hc
      exact hc
  have hmap : ∀ l : List (List (Change H A P)),
      (l.map (·.map fmt.rawBytes)).flatten = l.flatten.map fmt.rawBytes := fun l =>
    (List.map_flatten ..).symm
  by_cases hnil : calls.flatten = []
  · -- nothing is applied, and the transaction stays open
    have hnil' : calls'.flatten = [] := by
      rw [List.eq_nil_iff_forall_not_mem] at hnil ⊢
      exact fun c hc => hnil c ((hsame c).mpr hc)
    have hnone : ∀ l : List (List (Change H A P)), l.flatten = [] →
        d.amApplyCalls fmt (l.map (·.map fmt.rawBytes)) = some d := by
      intro l hl
      induction l with
      | nil => rfl
      | cons cs l ih =>
        rw [List.flatten_cons, List.append_eq_nil_iff] at hl
        obtain ⟨rfl, hl⟩ := hl
        exact ih hl
    refine ⟨d, d, doc₀, doc₀, hnone _ hnil, hnone _ hnil', hclosed, hclosed, fun c => ?_,
      fun c => Iff.rfl, fun c => Iff.rfl, rfl⟩
    rw [hch, hnil]
    refine ⟨fun hc => ⟨Or.inl hc, fun x hx => Or.inl ?_⟩, fun hc => hc.1.resolve_right (by simp)⟩
    rw [← happ]
    exact hwf.closed.anc hx (happ ▸ mem_hashesOf.mpr hc)
  · have hfit : d.patchLog.Follows doc₀.actors Set.univ :=
      PatchLog.follows_of_subset (hlog.subset hwf hch)
    obtain ⟨doc, log, hrun, htakes⟩ :=
      amApplyCalls_takes fmt calls doc₀ d.patchLog hwf hfit (fun _ _ => trivial) hhonest hclash₀
    obtain ⟨doc', log', hrun', htakes'⟩ := amApplyCalls_takes fmt calls' doc₀ d.patchLog hwf hfit
      (fun _ _ => trivial) (fun c hc => hhonest c ((hsame c).mpr hc))
      (hclash₀.mono fun c hc => hc.imp id (hsame c).mpr)
    have hnil' : calls'.flatten ≠ [] := by
      intro h
      apply hnil
      rw [List.eq_nil_iff_forall_not_mem] at h ⊢
      exact fun c hc => h c ((hsame c).mp hc)
    have htakes := htakes.resolve_left fun h => hnil h.1
    have htakes' := htakes'.resolve_left fun h => hnil' h.1
    have hstart : ∀ l : List (List (Change H A P)), l.flatten ≠ [] →
        (l.map (·.map fmt.rawBytes)).flatten ≠ [] := by
      intro l hl
      rw [hmap]
      simpa using hl
    have hsameKnown : doc.known = doc'.known := by
      rw [htakes.known, htakes'.known, hhash]
    have hsameApplied : doc.applied = doc'.applied := by
      rw [htakes.applied_eq, htakes'.applied_eq, hhash]
    have hmem : ∀ c, c ∈ doc.changeGraph.changes ↔ c ∈ doc'.changeGraph.changes := by
      intro c
      rw [mem_changes_iff, mem_changes_iff, hsameApplied]
    have hqueued : ∀ {e : Automerge M}, e.WF → ∀ c, c ∈ e.queue ↔ c.hash ∈ e.known ∧ c.hash ∉ e.applied := by
      intro e he c
      refine ⟨fun hc => ⟨Or.inr (mem_hashesOf.mpr hc), he.queue_new c hc⟩, fun hc => ?_⟩
      exact mem_hashesOf.mp (hc.1.resolve_left hc.2)
    refine ⟨.closed doc log, .closed doc' log', doc, doc', ?_, ?_, rfl, rfl, fun c => ?_, hmem, fun c => ?_,
      (getHeads_eq_iff htakes.wf htakes'.wf).mpr hsameApplied⟩
    · rw [amApplyCalls_of_closed fmt hclosed _ (hstart calls hnil)]
      exact hrun
    · rw [amApplyCalls_of_closed fmt hclosed _ (hstart calls' hnil')]
      exact hrun'
    · rw [mem_changes_iff, htakes.applied_eq, hknown]
      have hiff : c.hash ∈ Causal.Core (Dep A P) (hashesOf d.changes ∪ hashesOf calls.flatten) ↔
          ∀ x, Causal.Anc (Dep A P) x c.hash → x ∈ hashesOf d.changes ∪ hashesOf calls.flatten :=
        forall_congr' fun x => by rw [Causal.mem_past_singleton]
      rw [hiff]
      refine ⟨fun h => ⟨?_, h⟩, fun h => h.2⟩
      exact (h c.hash .refl).imp mem_hashesOf.mp mem_hashesOf.mp
    · rw [hqueued htakes.wf, hqueued htakes'.wf, hsameKnown, hsameApplied]

end

/-- The change of the second document. -/
def edit2 : Change ByteHash ℕ ℕ := ⟨2, 1, 1, [], [2]⟩

/-- It is applied twice and once. -/
theorem amApplyCalls_order_edited : ∃ e e' doc doc',
    (editedDoc 1).amApplyCalls byteFormat
        [[byteFormat.rawBytes edit2], [byteFormat.rawBytes edit2]] = some e ∧
      (editedDoc 1).amApplyCalls byteFormat [[byteFormat.rawBytes edit2]] = some e' ∧
      e.ensureTransactionClosed = some doc ∧ e'.ensureTransactionClosed = some doc' ∧
      doc.getHeads = doc'.getHeads := by
  obtain ⟨other, -, ho, -, hch⟩ := editedDoc_closed 2
  have hmem : ∀ c, c ∈ [[edit2], [edit2]].flatten ↔ c = edit2 := fun c => by simp
  obtain ⟨e, e', doc, doc', hrun, hrun', hclosed, hclosed', -, -, -, hheads⟩ :=
    amApplyCalls_order byteFormat (editedDoc_reachable 1) rfl (logFits_edited 1)
      (fun c (hc : c ∈ [[edit2], [edit2]].flatten) => by
        refine ⟨.ofDoc other, ho, ?_⟩
        show c ∈ other.changeGraph.changes
        rw [hch, (hmem c).mp hc]
        exact List.mem_singleton_self _)
      (noClash_edited.mono fun c hc => by
        refine hc.imp id fun hc => ?_
        rw [editedDoc_changes, (hmem c).mp hc]
        exact List.mem_singleton_self _)
      (fun c => (hmem c).trans (by simp : c = edit2 ↔ c ∈ [[edit2]].flatten))
  exact ⟨e, e', doc, doc', hrun, hrun', hclosed, hclosed', hheads⟩

/-! ## Merging by hand -/

omit [LinearOrder A] in
/-- What is closed is applied, with nothing held back. -/
theorem Automerge.Takes.settles {doc doc' : Automerge M} {S T : Set H} (h : doc.Takes doc' S)
    (hT : doc.known ∪ S = T) (hclosed : Causal.Closed (Dep A P) T) :
    doc'.applied = T ∧ doc'.queue = [] := by
  have happlied : doc'.applied = T := by
    rw [h.applied_eq, hT]
    exact Set.Subset.antisymm (Causal.core_subset _) (hclosed.subset_core subset_rfl)
  refine ⟨happlied, List.eq_nil_iff_forall_not_mem.mpr fun c hc => h.wf.queue_new c hc ?_⟩
  rw [happlied, ← hT, ← h.known]
  exact Or.inr (mem_hashesOf.mpr hc)

/-- **A merge** of documents that hold nothing back and do not clash succeeds where the patch
log fits, and so does to apply, one vector at a time, what `am_get_changes_added` returns. Either way the document
has the changes of both, nothing held back, and the same heads; the other document has what
it had. -/
theorem amMerge_added (fmt : ChunkFormat H A P) {d other : AutoCommit M} (hd : Reachable d)
    (ho : Reachable other) (hq : d.doc.queue = []) (hqo : other.doc.queue = [])
    (hlog : d.LogFits) (hclash : NoClash {c | c ∈ d.changes ∨ c ∈ other.changes}) :
    ∃ doc₀ odoc merged log applied log' vs,
      d.amMerge other = .ok (.closed merged log, .closed odoc other.patchLog) ∧
      d.amGetChangesAdded fmt other =
        some (.closed doc₀ d.patchLog, .closed odoc other.patchLog, vs) ∧
      (AutoCommit.closed doc₀ d.patchLog).amApplyChanges fmt vs = .ok (.closed applied log') ∧
      odoc.changeGraph.changes = other.changes ∧
      (∀ c, c ∈ merged.changeGraph.changes ↔ c ∈ d.changes ∨ c ∈ other.changes) ∧
      (∀ c, c ∈ applied.changeGraph.changes ↔ c ∈ d.changes ∨ c ∈ other.changes) ∧
      merged.queue = [] ∧ applied.queue = [] ∧ merged.getHeads = applied.getHeads := by
  obtain ⟨doc₀, hclosed, hwf, hch, hqueue, happ⟩ :=
    exists_closed hd (AutoCommit.fresh_of_queue_nil hq)
  obtain ⟨odoc, hoclosed, howf, hoch, hoqueue, hoapp⟩ :=
    exists_closed ho (AutoCommit.fresh_of_queue_nil hqo)
  rw [hq] at hqueue
  rw [hqo] at hoqueue
  obtain ⟨cs, hadded, -, hcs⟩ := getChangesAdded_spec hwf howf
  have hhashes := getChangesAdded_hashes hcs
  have hhonest : ∀ c ∈ cs, c.Honest := fun c hc => howf.honest c (Or.inl ((hcs c).mp hc).1)
  have hknown : doc₀.known = hashesOf d.changes := by
    rw [known, held, hqueue, hashesOf_nil, Set.union_empty, happ]
  have hunion : doc₀.known ∪ hashesOf cs = hashesOf d.changes ∪ hashesOf other.changes := by
    rw [hhashes, hknown, happ, hoapp, Set.union_sdiff_self]
  have hclosedUnion : Causal.Closed (Dep A P) (hashesOf d.changes ∪ hashesOf other.changes) := by
    rw [← happ, ← hoapp]
    exact hwf.closed.union howf.closed
  -- what takes the added changes has the union, and holds nothing back
  have hall : ∀ {e : Automerge M}, doc₀.Takes e (hashesOf cs) →
      e.applied = hashesOf d.changes ∪ hashesOf other.changes ∧ e.queue = [] :=
    fun he => he.settles hunion hclosedUnion
  have hmem : ∀ {e : Automerge M}, e.applied = hashesOf d.changes ∪ hashesOf other.changes →
      ∀ c, c ∈ e.changeGraph.changes ↔ c ∈ d.changes ∨ c ∈ other.changes := by
    intro e he c
    rw [mem_changes_iff, he, Set.mem_union, mem_hashesOf, mem_hashesOf]
  have hclash₀ : NoClash {c | c ∈ doc₀.changeGraph.changes ∨ c ∈ doc₀.queue ∨ c ∈ cs} :=
    hclash.mono fun c hc => by
      rcases hc with hc | hc | hc
      · exact Or.inl (hch ▸ hc)
      · rw [hqueue] at hc
        cases hc
      · exact Or.inr (hoch ▸ ((hcs c).mp hc).1)
  have hfit := hlog.subset hwf hch
  obtain ⟨merged, hmerged⟩ := applyChanges_total hwf hhonest hclash₀
  obtain ⟨log, hlogged, -⟩ := applyChangesLogPatches_of_subset hwf.graph hfit
    (show doc₀.applyChanges cs = .after none merged from hmerged)
  obtain ⟨hmapp, hmqueue⟩ := hall (takes_of_applyChanges hwf hhonest hmerged)
  obtain ⟨applied, log', happlied, haapp, haqueue, hawf⟩ : ∃ e log',
      (AutoCommit.closed doc₀ d.patchLog).amApplyChanges fmt (cs.map fmt.rawBytes) =
        .ok (.closed e log') ∧ e.applied = hashesOf d.changes ∪ hashesOf other.changes ∧ e.queue = [] ∧ e.WF := by
    by_cases hnil : cs = []
    · subst hnil
      refine ⟨doc₀, d.patchLog, rfl, ?_, hqueue, hwf⟩
      rw [← hunion, hashesOf_nil, Set.union_empty, happ, hknown]
    · obtain ⟨e, log', he, -, -, htakes⟩ := AutoCommit.applyChanges_rawBytes (S := Set.univ) fmt cs
        doc₀ d.patchLog 0 hwf (PatchLog.follows_of_subset hfit) hnil (fun _ _ => trivial) hhonest
        (hclash.mono fun c hc => by
          rcases hc with hc | hc
          · rw [hknown, mem_hashesOf] at hc
            exact Or.inl hc
          · exact Or.inr (hoch ▸ ((hcs c).mp hc).1))
      exact ⟨e, log', he, (hall htakes).1, (hall htakes).2, htakes.wf⟩
  refine ⟨doc₀, odoc, merged, log, applied, log', cs.map fmt.rawBytes, ?_, ?_, happlied, hoch,
    hmem hmapp, hmem haapp, hmqueue, haqueue, ?_⟩
  · have hmerge : doc₀.mergeAndLogPatches odoc d.patchLog = .ok (merged, log) := by
      unfold Automerge.mergeAndLogPatches
      rw [hadded]
      exact hlogged
    simp only [AutoCommit.amMerge, hclosed, hoclosed, hmerge]
    rfl
  · simp [AutoCommit.amGetChangesAdded, hclosed, hoclosed, hadded]
  · exact (getHeads_eq_iff (takes_of_applyChanges hwf hhonest hmerged).wf hawf).mpr
      (hmapp.trans haapp.symm)

theorem amMerge_added_edited : ∃ doc₀ odoc merged log applied log' vs,
    (editedDoc 1).amMerge (editedDoc 2) = .ok (.closed merged log, .closed odoc ⟨{2}⟩) ∧
      (editedDoc 1).amGetChangesAdded byteFormat (editedDoc 2) =
        some (.closed doc₀ ⟨{1}⟩, .closed odoc ⟨{2}⟩, vs) ∧
      (AutoCommit.closed doc₀ ⟨{1}⟩).amApplyChanges byteFormat vs = .ok (.closed applied log') ∧
      merged.getHeads = applied.getHeads := by
  obtain ⟨doc₀, odoc, merged, log, applied, log', vs, hmerge, hadded, happly, -, -, -, -, -, hheads⟩ :=
    amMerge_added byteFormat (editedDoc_reachable 1) (editedDoc_reachable 2) rfl rfl
      (logFits_edited 1) noClash_edited
  exact ⟨doc₀, odoc, merged, log, applied, log', vs, hmerge, hadded, happly, hheads⟩

end AutomergeR
