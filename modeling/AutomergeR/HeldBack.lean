import AutomergeR.AmSync
import AutomergeR.SyncRounds

/-! # Documents that hold changes back

A peer that is asked for a hash it does not have says nothing, and `am_sync` takes that
for agreement. What a call that returns has brought across is therefore settled in the
second round, in which both answer the other's greeting: two documents that cannot give what
the other waits for stay as they are, and where one of them can it all depends on its answer
(`Suffices`, `amSync_brings_iff`). A document that has nothing applied yet is sent everything.
-/

namespace AutomergeR

open Automerge

variable {H A P : Type} [LinearOrder H] [LinearOrder A] [ChangeHash H A P]
  {M : OpSetModel H A P} {fmt : ChunkFormat H A P} {B : BloomScheme H}

/-! ## What the second round settles -/

section Answers

variable {doc₁ doc₂ : Automerge M} {log₁ log₂ : PatchLog A} {d₁ d₂ : AutoCommit M} {rounds : ℕ}
  {x : H}

/-- `doc` has what `other` waits for, and its answer to the greeting of `other` is enough: `other`
can then give what `doc` waits for, or else has all there is. -/
def Automerge.Suffices (B : BloomScheme H) (doc other : Automerge M) : Prop :=
  (∀ x ∈ other.getMissingDeps [], x ∈ doc.applied) ∧
    ((∀ x ∈ doc.getMissingDeps [], x ∈ other.appliedWith (doc.answer B other)) ∨
      other.applied ⊆ doc.applied ∧ doc.applied ⊆ other.appliedWith (doc.answer B other))

omit [LinearOrder A] in
theorem answerable_iff {doc other : Automerge M} :
    doc.Answerable other ↔ ∀ x ∈ doc.getMissingDeps [], x ∈ other.applied := by
  constructor
  · intro h x hx
    obtain ⟨⟨c, hc, hd⟩ | hx, hxn⟩ := mem_getMissingDeps.mp hx
    · exact (h c hc x hd).resolve_left hxn
    · cases hx
  · intro h c hc x hx
    by_cases hxn : x ∈ doc.known
    · exact Or.inl hxn
    · exact Or.inr (h x (mem_getMissingDeps.mpr ⟨Or.inl ⟨c, hc, hx⟩, hxn⟩))

/-- A document that has nothing applied receives all the other has. -/
theorem syncLoop_empty (h₁ : doc₁.WF) (h₂ : doc₂.WF) (hn₁ : doc₁.getHeads = [])
    (hn₂ : doc₂.getHeads ≠ [])
    (hrun : syncLoop fmt rounds ⟨.closed doc₁ log₁, doc₁.greeted B doc₂⟩
      ⟨.closed doc₂ log₂, doc₂.greeted B doc₁⟩ = .returned d₁ d₂) :
    doc₂.applied ⊆ d₁.doc.applied := by
  have hgen₂ := generate_greeted_nil (B := B) fmt hn₁ hn₂
  rcases syncLoop_cases hrun with ⟨_, _, _, hs₂, _⟩ |
    ⟨_, _, _, _, _, doc₁', _, _, _, _, _, _, hs₁, hs₂, hdec₁, hdec₂, hrun⟩
  · rw [hgen₂] at hs₂
    cases hs₂
  · obtain ⟨hg₁, hst₁⟩ := Exchange.grows h₁ h₂ asksOnce_greeted asksOnce_greeted
      ⟨_, hs₁, heard_of_decode hdec₁⟩ ⟨_, hs₂, heard_of_decode hdec₂⟩
    obtain ⟨hg₂, hst₂⟩ := Exchange.grows h₂ h₁ asksOnce_greeted asksOnce_greeted
      ⟨_, hs₂, heard_of_decode hdec₂⟩ ⟨_, hs₁, heard_of_decode hdec₁⟩
    refine Set.Subset.trans ?_ (syncLoop_grows _ hg₁.wf hg₂.wf hst₁ hst₂ hrun).2.2.1
    rw [hgen₂, Option.some.injEq, Prod.mk.injEq] at hs₂
    obtain ⟨rfl, rfl⟩ := hs₂
    exact (receive_document h₁ h₂ (heard_of_decode hdec₁)).subset_applied h₂.closed fun x hx =>
      Or.inr (Or.inl hx)

/-- Neither can give what the other waits for: both stay as they are. -/
theorem syncLoop_neither {y : H} (hn₁ : doc₁.getHeads ≠ []) (hn₂ : doc₂.getHeads ≠ [])
    (hx : x ∈ doc₁.getMissingDeps []) (hxn : x ∉ doc₂.applied) (hy : y ∈ doc₂.getMissingDeps [])
    (hyn : y ∉ doc₁.applied)
    (hrun : syncLoop fmt rounds ⟨.closed doc₁ log₁, doc₁.greeted B doc₂⟩
      ⟨.closed doc₂ log₂, doc₂.greeted B doc₁⟩ = .returned d₁ d₂) :
    d₁ = .closed doc₁ log₁ ∧ d₂ = .closed doc₂ log₂ :=
  syncLoop_silent (generate_unanswered hn₂ hy hyn) (generate_unanswered hn₁ hx hxn) hrun

variable (fmt) in
/-- Asked once more for what it does not have a peer is silent still, and the other one waits. -/
theorem generate_third {doc₂' : Automerge M} (h₁ : doc₁.WF) (h₂ : doc₂.WF)
    (hn₁ : doc₁.getHeads ≠ []) (hans : ∀ x ∈ doc₂.getMissingDeps [], x ∈ doc₁.applied)
    (hgrow : doc₂.applied ⊆ doc₂'.applied) (hx : x ∈ doc₁.getMissingDeps [])
    (hxn : x ∉ doc₂'.applied) {changes : List (List UInt8)} {version : MessageVersion}
    {hashes : List H} {st₁ st₂ : SyncState B}
    (hst₁ : st₁ = doc₁.sent (doc₁.greeted B doc₂) hashes)
    (hst₂ : st₂ = doc₂'.noteMessage doc₂.getHeads (doc₂.greeted B doc₁)
      (doc₁.message (doc₁.greeted B doc₂) changes version)) :
    doc₁.generateSyncMessage fmt st₁ = some (st₁, none) ∧
      doc₂'.generateSyncMessage fmt st₂ = some (st₂, none) := by
  subst hst₁ hst₂
  have hwaits : x ∈ doc₁.ourNeed (doc₁.greeted B doc₂) := by
    obtain ⟨hq | hh, hxk⟩ := mem_getMissingDeps.mp hx
    · exact mem_getMissingDeps.mpr ⟨Or.inl hq, hxk⟩
    · cases hh
  refine ⟨generate_waiting h₁ (greeted_mustReset B doc₁ doc₂)
    (fun ns hns => by cases hns; exact ⟨getMissingDeps_nodup _, hans⟩)
    rfl rfl rfl, ?_⟩
  refine generate_stuck (mustReset_eq_false fun hvs hhvs hv hhv z hz => ?_) rfl hn₁ rfl rfl hwaits
    (fun hmem => ?_) hxn
  · obtain rfl : doc₁.ourHave (doc₁.greeted B doc₂) = hvs := by
      simpa [noteMessage, message] using hhvs
    exact hgrow (greeted_shared h₂ z (ourHave_lastSync hv hhv ▸ hz))
  · have hnone := noteMessage_sentHashes doc₂.getHeads hmem
    rw [greeted_sentHashes] at hnone
    exact Finset.notMem_empty x hnone

/-- Only `doc₁` can give what the other waits for: its answer decides. -/
theorem syncLoop_oneWay (h₁ : doc₁.WF) (h₂ : doc₂.WF) (hn₁ : doc₁.getHeads ≠ [])
    (hn₂ : doc₂.getHeads ≠ []) (hne : doc₁.getHeads ≠ doc₂.getHeads)
    (hans : ∀ x ∈ doc₂.getMissingDeps [], x ∈ doc₁.applied) (hx : x ∈ doc₁.getMissingDeps [])
    (hxn : x ∉ doc₂.applied)
    (hrun : syncLoop fmt rounds ⟨.closed doc₁ log₁, doc₁.greeted B doc₂⟩
      ⟨.closed doc₂ log₂, doc₂.greeted B doc₁⟩ = .returned d₁ d₂) :
    doc₂.applied ⊆ d₁.doc.applied ∧ doc₁.applied ⊆ d₂.doc.applied ↔ doc₁.Suffices B doc₂ := by
  obtain ⟨cs, hsub, hmap, hgen₁⟩ := generate_answer (B := B) fmt h₁ hn₂ hne.symm hans
  have hgen₂ : doc₂.generateSyncMessage fmt (doc₂.greeted B doc₁) =
      some (doc₂.greeted B doc₁, none) := generate_unanswered hn₁ hx hxn
  obtain ⟨rounds', doc₁', log₁', st₁, doc₂', log₂', st₂, hdec₁, hdec₂, hrun⟩ :=
    syncLoop_step hgen₁ hgen₂ (by simp) hrun
  obtain ⟨rfl, rfl⟩ := heard_of_decode hdec₁
  have hrecv : doc₂.receiveSyncMessage fmt _ _ = .ok (doc₂', st₂) := heard_of_decode hdec₂
  obtain ⟨rfl, h₂', happ, hkept, hknown⟩ := receive_answer h₂ h₁ hsub hrecv
  rw [hmap] at happ
  have hgrow : doc₂.applied ⊆ doc₂'.applied := happ ▸ subset_appliedWith h₂ _
  by_cases hall : ∀ x ∈ doc₁'.getMissingDeps [], x ∈ doc₂'.applied
  · -- from here on both can answer
    have hback : doc₂'.Answerable doc₁' := by
      intro c hc x hx
      have hold : c.hash ∉ doc₂.applied := fun hmem => h₂'.queue_new c hc (hgrow hmem)
      rcases hknown (Or.inr (mem_hashesOf.mpr hc)) with hk | hk
      · have hq := mem_hashesOf.mp (hk.resolve_left hold)
        exact (answerable_iff.mpr hans c hq x hx).imp_left fun hk => hkept hk
      · exact Or.inr (h₁.closed (dep_hash.mpr hx) hk)
    have htalk : Talk doc₁' (doc₁'.sent (doc₁'.greeted B doc₂) (doc₁'.answer B doc₂)) doc₂'
        (doc₂'.noteMessage doc₂.getHeads (doc₂.greeted B doc₁') (doc₁'.message
          (doc₁'.greeted B doc₂) (newV2 (cs.flatMap fmt.rawBytes)) .v2)) := by
      refine ⟨⟨h₁, ?_, ?_, fun _ => rfl, answerable_iff.mpr hall⟩,
        ⟨h₂', ?_, ?_, fun hf => (nomatch hf), hback⟩, fun hf => (nomatch hf.2)⟩
      · rintro hs ⟨⟩ x hxs
        exact hgrow ((mem_getHeads h₂).mp hxs).1
      · rintro ns ⟨⟩
        exact ⟨getMissingDeps_nodup _, hans⟩
      · rintro hs ⟨⟩ x hxs
        exact ((mem_getHeads h₁).mp hxs).1
      · rintro ns ⟨⟩
        refine ⟨getMissingDeps_nodup _, fun x hxs => ?_⟩
        obtain ⟨hq | hh, hxn⟩ := mem_getMissingDeps.mp hxs
        · exact hall x (mem_getMissingDeps.mpr ⟨Or.inl hq, hxn⟩)
        · exact hgrow ((mem_getHeads h₂).mp hh).1
    obtain ⟨_, _, _, _, rfl, rfl, _, _, heq, hs₁, hs₂, _⟩ := syncLoop_returned rounds' htalk hrun
    refine iff_of_true ⟨?_, ?_⟩ ⟨hans, Or.inl (happ ▸ hall)⟩
    · exact (hgrow.trans hs₂).trans heq.ge
    · exact hs₁.trans heq.le
  · push Not at hall
    obtain ⟨y, hy, hyn⟩ := hall
    obtain ⟨hgen₁', hgen₂'⟩ := generate_third fmt h₁ h₂ hn₁ hans hgrow hy hyn rfl rfl
    obtain ⟨rfl, rfl⟩ := syncLoop_silent hgen₁' hgen₂' hrun
    show _ ∧ _ ⊆ doc₂'.applied ↔ _
    rw [happ] at hyn ⊢
    exact ⟨fun h => ⟨hans, Or.inr h⟩, fun h => h.2.resolve_left fun hno => hyn (hno y hy)⟩

theorem syncLoop_swapped
    (hrun : syncLoop fmt rounds ⟨.closed doc₁ log₁, doc₁.greeted B doc₂⟩
      ⟨.closed doc₂ log₂, doc₂.greeted B doc₁⟩ = .returned d₁ d₂) :
    syncLoop fmt rounds ⟨.closed doc₂ log₂, doc₂.greeted B doc₁⟩
      ⟨.closed doc₁ log₁, doc₁.greeted B doc₂⟩ = .returned d₂ d₁ := by
  rw [syncLoop_swap, hrun]
  rfl

/-- **What a call that returns has brought across** is everything exactly if one document had
nothing applied, or the heads were the same, or the answer of one of them to the other's greeting
was enough. -/
theorem amSync_brings_iff {d₁' d₂' : AutoCommit M} (hc₁ : d₁.ensureTransactionClosed = some doc₁)
    (hc₂ : d₂.ensureTransactionClosed = some doc₂) (h₁ : Reachable (.ofDoc doc₁))
    (h₂ : Reachable (.ofDoc doc₂)) (hrun : amSync fmt B rounds d₁ d₂ = .returned d₁' d₂') :
    (∀ c, c ∈ doc₁.changeGraph.changes ∨ c ∈ doc₂.changeGraph.changes →
      c ∈ d₁'.doc.changeGraph.changes ∧ c ∈ d₂'.doc.changeGraph.changes) ↔
    doc₁.getHeads = [] ∨ doc₂.getHeads = [] ∨ doc₁.getHeads = doc₂.getHeads ∨
      doc₁.Suffices B doc₂ ∨ doc₂.Suffices B doc₁ := by
  have hwf₁ : doc₁.WF := h₁.wf.1
  have hwf₂ : doc₂.WF := h₂.wf.1
  rcases rounds with _ | rounds
  · cases hrun
  rw [amSync_of_closed hc₁ hc₂] at hrun
  obtain ⟨-, -, hs₁, hs₂⟩ := syncLoop_grows _ hwf₁ hwf₂ asksOnce_new asksOnce_new hrun
  have hset : (∀ c, c ∈ doc₁.changeGraph.changes ∨ c ∈ doc₂.changeGraph.changes →
      c ∈ d₁'.doc.changeGraph.changes ∧ c ∈ d₂'.doc.changeGraph.changes) ↔
      doc₂.applied ⊆ d₁'.doc.applied ∧ doc₁.applied ⊆ d₂'.doc.applied := by
    simp only [mem_changes_iff]
    constructor
    · intro h
      refine ⟨fun x hx => ?_, fun x hx => ?_⟩ <;> obtain ⟨c, -, rfl⟩ := ChangeGraph.mem_hashes.mp hx
      · exact (h c (Or.inr hx)).1
      · exact (h c (Or.inl hx)).2
    · rintro ⟨hb₁, hb₂⟩ c (hc | hc)
      · exact ⟨hs₁ hc, hb₂ hc⟩
      · exact ⟨hb₁ hc, hs₂ hc⟩
  rw [hset]
  have hrun' := hrun
  rw [syncLoop, syncRound_new] at hrun'
  by_cases hne : doc₁.getHeads = doc₂.getHeads
  · have heq := (getHeads_eq_iff hwf₁ hwf₂).mp hne
    exact iff_of_true ⟨heq ▸ hs₁, heq ▸ hs₂⟩ (Or.inr (Or.inr (Or.inl hne)))
  by_cases hn₁ : doc₁.getHeads = []
  · have hn₂ : doc₂.getHeads ≠ [] := fun hn₂ => hne (hn₁.trans hn₂.symm)
    refine iff_of_true ⟨syncLoop_empty hwf₁ hwf₂ hn₁ hn₂ hrun', ?_⟩ (Or.inl hn₁)
    rw [applied_eq_empty hwf₁ hn₁]
    exact Set.empty_subset _
  by_cases hn₂ : doc₂.getHeads = []
  · refine iff_of_true ⟨?_, syncLoop_empty hwf₂ hwf₁ hn₂ hn₁ (syncLoop_swapped hrun')⟩
      (Or.inr (Or.inl hn₂))
    rw [applied_eq_empty hwf₂ hn₂]
    exact Set.empty_subset _
  simp only [hn₁, hn₂, hne, false_or]
  by_cases ha₁ : ∀ x ∈ doc₁.getMissingDeps [], x ∈ doc₂.applied
  · by_cases ha₂ : ∀ x ∈ doc₂.getMissingDeps [], x ∈ doc₁.applied
    · -- whatever is asked for can be given
      obtain ⟨_, _, _, _, rfl, rfl, _, _, heq, hb₁, hb₂, _⟩ := syncLoop_returned _
        (talk_new hwf₁ hwf₂ (answerable_iff.mpr ha₁) (answerable_iff.mpr ha₂)) hrun
      exact iff_of_true ⟨hb₂.trans heq.ge, hb₁.trans heq.le⟩
        (Or.inl ⟨ha₂, Or.inl fun x hx => subset_appliedWith hwf₂ _ (ha₁ x hx)⟩)
    · rw [or_iff_right fun hs : doc₁.Suffices B doc₂ => ha₂ hs.1, and_comm]
      push Not at ha₂
      obtain ⟨y, hy, hyn⟩ := ha₂
      exact syncLoop_oneWay hwf₂ hwf₁ hn₂ hn₁ (Ne.symm hne) ha₁ hy hyn (syncLoop_swapped hrun')
  · rw [or_iff_left fun hs : doc₂.Suffices B doc₁ => ha₁ hs.1]
    push Not at ha₁
    obtain ⟨x, hx, hxn⟩ := ha₁
    by_cases ha₂ : ∀ x ∈ doc₂.getMissingDeps [], x ∈ doc₁.applied
    · exact syncLoop_oneWay hwf₁ hwf₂ hn₁ hn₂ hne ha₂ hx hxn hrun'
    · refine iff_of_false ?_ fun hs => ha₂ hs.1
      push Not at ha₂
      obtain ⟨y, hy, hyn⟩ := ha₂
      obtain ⟨rfl, rfl⟩ := syncLoop_neither hn₁ hn₂ hx hxn hy hyn hrun'
      exact fun h => hne ((getHeads_eq_iff hwf₁ hwf₂).mpr (h.2.antisymm h.1))

/-- **A request nobody can answer.** If `doc₁` waits for a hash neither document has
received, the call returns with `doc₁` as it was: whatever `doc₂` has applied does not get
across. -/
theorem amSync_stuck (hc₁ : d₁.ensureTransactionClosed = some doc₁)
    (hc₂ : d₂.ensureTransactionClosed = some doc₂) (h₁ : doc₁.WF) (h₂ : doc₂.WF)
    (hlog₂ : d₂.patchLog.actors ⊆ doc₂.actors) (hn₁ : doc₁.getHeads ≠ [])
    (hn₂ : doc₂.getHeads ≠ []) (hne : doc₁.getHeads ≠ doc₂.getHeads)
    (hans : ∀ x ∈ doc₂.getMissingDeps [], x ∈ doc₁.applied)
    (hclash : NoClash {c : Change H A P | c.hash ∈ doc₁.known ∪ doc₂.known})
    (hx : x ∈ doc₁.getMissingDeps []) (hxn : x ∉ doc₂.known) :
    ∃ rounds log₁ doc₂' log₂', amSync fmt B rounds d₁ d₂ =
      .returned (.closed doc₁ log₁) (.closed doc₂' log₂') := by
  obtain ⟨cs, hsub, -, hgen₁⟩ := generate_answer (B := B) fmt h₁ hn₂ hne.symm hans
  have hgen₂ : doc₂.generateSyncMessage fmt (doc₂.greeted B doc₁) =
      some (doc₂.greeted B doc₁, none) :=
    generate_unanswered hn₁ hx fun h => hxn (Or.inl h)
  set m : Message B := doc₁.message (doc₁.greeted B doc₂) (newV2 (cs.flatMap fmt.rawBytes)) .v2
  -- the answer of `doc₁` can be taken in
  obtain ⟨doc₂', st₂, hrecv⟩ : ∃ doc₂' st₂, doc₂.receiveSyncMessage fmt (doc₂.greeted B doc₁) m =
      .ok (doc₂', st₂) := by
    by_cases hnil : m.changes = []
    · exact ⟨_, _, receiveSyncMessage_nil fmt hnil⟩
    · obtain ⟨doc₂', hload⟩ := ((receives_of_carries h₂ h₁ (carries_newV2 fmt hsub)).2 hnil).2
        (Set.union_comm doc₁.known doc₂.known ▸ hclash)
      have hload : doc₂.loadIncremental fmt m.changes.flatten = .ok doc₂' := hload
      exact ⟨doc₂', _, by rw [receiveSyncMessage_changes fmt hnil, hload]⟩
  obtain ⟨hst₂, h₂', happ, -, hknown⟩ := receive_answer h₂ h₁ hsub hrecv
  have hgrow : doc₂.applied ⊆ doc₂'.applied := happ ▸ subset_appliedWith h₂ _
  have hxn' : x ∉ doc₂'.applied := fun hmem => (hknown (Or.inl hmem)).elim hxn
    fun hmem => (mem_getMissingDeps.mp hx).2 (Or.inl hmem)
  obtain ⟨-, log₂, hlogged, -⟩ := receiveSyncMessageLogPatches_of_follows (S := Set.univ) fmt
    h₂.graph (PatchLog.follows_of_subset hlog₂) (fun _ _ => trivial) hrecv
  obtain ⟨hgen₁', hgen₂'⟩ := generate_third fmt h₁ h₂ hn₁ hans hgrow hx hxn'
    (rfl : doc₁.sent (doc₁.greeted B doc₂) (doc₁.answer B doc₂) = _) hst₂
  refine ⟨3, d₁.patchLog, doc₂', log₂, ?_⟩
  rw [amSync_of_closed hc₁ hc₂, syncLoop, syncRound_new]
  simp only
  rw [syncLoop, syncRound_of_decode hgen₁ hgen₂ (by simp) rfl (decode_of_logged hlogged)]
  exact syncLoop_of_silent 0 hgen₁' hgen₂'

end Answers

/-! ### A document that waits -/

/-- Two documents, of which the first one waits for a change that the second has applied. -/
theorem exists_waiting :
    ∃ (doc₁ doc₂ : Automerge (changeLog ByteHash ℕ ℕ)) (c : Change ByteHash ℕ ℕ),
    Reachable (.ofDoc doc₁) ∧ Reachable (.ofDoc doc₂) ∧ doc₁.queue = [c] ∧ doc₂.queue = [] ∧
      (∀ b, b ∈ doc₁.changeGraph.changes ↔ b = ⟨1, 1, 1, [], [1]⟩) ∧ c ∈ doc₂.changeGraph.changes ∧
      c.actor = 2 ∧ (⟨2, 1, 1, [], [2]⟩ : Change ByteHash ℕ ℕ).hash ∈ c.deps ∧
      (⟨2, 1, 1, [], [2]⟩ : Change ByteHash ℕ ℕ).hash ∉ doc₁.known ∧ doc₁.Settled ∧
      NoClash {b : Change ByteHash ℕ ℕ | b.hash ∈ doc₁.known ∪ doc₂.known} := by
  -- the second document has a change and one on top of it
  obtain ⟨base, -, hb, hbq, hbch⟩ := editedDoc_closed 2
  obtain ⟨doc₂, c, h₂, hq₂, hch₂, hactor, -, -, -, hheads⟩ := exists_edited (hb.setActor 2) hbq 7
  have hwf₂ : doc₂.WF := h₂.wf.1
  replace hch₂ : doc₂.changeGraph.changes = [⟨2, 1, 1, [], [2]⟩, c] :=
    hch₂.trans (congrArg (· ++ [c]) hbch)
  have hbase : ∀ b, b ∈ (base.setActor 2).changeGraph.changes ↔ b = ⟨2, 1, 1, [], [2]⟩ := fun b => by
    show b ∈ base.changeGraph.changes ↔ _
    rw [hbch, List.mem_singleton]
  have hdep : (⟨2, 1, 1, [], [2]⟩ : Change ByteHash ℕ ℕ).hash ∈ c.deps := by
    refine hheads _ ((mem_getHeads (hb.setActor 2).wf.1).mpr
      ⟨mem_changes_iff.mp ((hbase _).mpr rfl), fun b hbm => ?_⟩)
    rw [(hbase b).mp hbm]
    exact List.not_mem_nil
  -- the first one has received only the latter
  obtain ⟨a, -, ha, haq, hach⟩ := editedDoc_closed 1
  have hwfa : a.WF := ha.wf.1
  have hc₂ : c ∈ doc₂.changeGraph.changes := by simp [hch₂]
  have hhonest : ∀ b ∈ [c], b.Honest := fun b hbm =>
    hwf₂.honest b (Or.inl (List.mem_singleton.mp hbm ▸ hc₂))
  have hclash : NoClash {b : Change ByteHash ℕ ℕ |
      b = ⟨1, 1, 1, [], [1]⟩ ∨ b ∈ doc₂.changeGraph.changes} := by
    have hother : ∀ b ∈ doc₂.changeGraph.changes, b.actor = 2 := by
      intro b hb
      rw [hch₂] at hb
      rcases List.mem_pair.mp hb with rfl | rfl
      · rfl
      · exact hactor
    intro b hb d hd hab hs
    rcases hb with rfl | hb <;> rcases hd with rfl | hd
    · rfl
    · exact absurd (hab.trans (hother d hd)) (by decide)
    · exact absurd (hab.symm.trans (hother b hb)) (by decide)
    · exact hwf₂.graph.indexed.noClash b hb d hd hab hs
  obtain ⟨doc₁, hok⟩ := applyChanges_total hwfa hhonest (hclash.mono fun b hb => by
    rcases hb with hb | hb | hb
    · exact Or.inl (List.mem_singleton.mp (hach ▸ hb))
    · rw [haq] at hb
      cases hb
    · exact Or.inr (List.mem_singleton.mp hb ▸ hc₂))
  have h₁ : Reachable (.ofDoc doc₁) := .apply (fun _ => .ofDoc doc₂) ha (fun _ _ => h₂)
    (fun b hb => Or.inl (List.mem_singleton.mp hb ▸ hc₂)) (Or.inl hok)
  have hwf₁ : doc₁.WF := h₁.wf.1
  obtain ⟨chap, hext, hs₁, hknown⟩ := applyChanges_ok hwfa hhonest hok
  have hmem₁ : ∀ b : Change ByteHash ℕ ℕ, b.hash ∈ doc₁.known ↔ b = ⟨1, 1, 1, [], [1]⟩ ∨ b = c := by
    intro b
    rw [hknown, known, held, haq, hashesOf_nil, Set.union_empty, Set.mem_union, mem_hashesOf,
      List.mem_singleton, ← mem_changes_iff, hach, List.mem_singleton]
  have hmissing : (⟨2, 1, 1, [], [2]⟩ : Change ByteHash ℕ ℕ).hash ∉ doc₁.known := by
    have hnd : ([⟨2, 1, 1, [], [2]⟩, c] : List (Change ByteHash ℕ ℕ)).Nodup :=
      hch₂ ▸ List.Nodup.of_map _ hwf₂.graph.nodup
    rw [hmem₁]
    exact fun h => h.elim (by decide) fun h => by simp [h] at hnd
  have hqueue : ∀ b, b ∈ doc₁.queue ↔ b = c := by
    intro b
    constructor
    · intro hbq
      refine ((hmem₁ b).mp (Or.inr (mem_hashesOf.mpr hbq))).resolve_left ?_
      rintro rfl
      refine hwf₁.queue_new _ hbq (hext.applied_subset (mem_changes_iff.mp ?_))
      rw [hach]
      exact List.mem_singleton_self _
    · rintro rfl
      refine mem_hashesOf.mp (((hmem₁ b).mpr (Or.inr rfl)).resolve_left fun h => hmissing (Or.inl ?_))
      exact hwf₁.closed (dep_hash.mpr hdep) h
  have hone : doc₁.queue = [c] := by
    have hnd := List.Nodup.of_map _ hwf₁.queue_nodup
    exact List.perm_singleton.mp ((List.perm_ext_iff_of_nodup hnd (List.nodup_singleton c)).mpr
      fun b => (hqueue b).trans List.mem_singleton.symm)
  have hmine : ∀ b, b ∈ doc₁.changeGraph.changes ↔ b = ⟨1, 1, 1, [], [1]⟩ := by
    intro b
    constructor
    · intro hb
      refine ((hmem₁ b).mp (Or.inl (mem_changes_iff.mp hb))).resolve_right ?_
      rintro rfl
      exact hwf₁.queue_new b ((hqueue b).mpr rfl) (mem_changes_iff.mp hb)
    · rintro rfl
      refine mem_changes_iff.mpr (hext.applied_subset (mem_changes_iff.mp ?_))
      rw [hach]
      exact List.mem_singleton_self _
  refine ⟨doc₁, doc₂, c, h₁, h₂, hone, hq₂, hmine, hc₂, hactor, hdep, hmissing, hs₁,
    hclash.mono fun b hb => ?_⟩
  rcases hb with hb | hb | hb
  · exact ((hmem₁ b).mp hb).imp_right fun (h : b = c) => h ▸ hc₂
  · exact Or.inr (mem_changes_iff.mpr hb)
  · rw [held, hq₂, hashesOf_nil] at hb
    cases hb

theorem amSync_brings_waiting :
    ∃ (doc₁ doc₂ : Automerge (changeLog ByteHash ℕ ℕ)) (c : Change ByteHash ℕ ℕ) (rounds : ℕ)
      (d₁ d₂ : AutoCommit (changeLog ByteHash ℕ ℕ)), doc₁.queue = [c] ∧
      (∃ x ∈ c.deps, x ∉ doc₁.known) ∧
      amSync byteFormat headScheme rounds (.ofDoc doc₁) (.ofDoc doc₂) = .returned d₁ d₂ ∧
      ∀ c, c ∈ doc₁.changeGraph.changes ∨ c ∈ doc₂.changeGraph.changes →
        c ∈ d₁.doc.changeGraph.changes ∧ c ∈ d₂.doc.changeGraph.changes := by
  obtain ⟨doc₁, doc₂, c, h₁, h₂, hq₁, hq₂, -, hc₂, -, hdep, hmissing, hs₁, hclash⟩ := exists_waiting
  have hwf₂ : doc₂.WF := h₂.wf.1
  obtain ⟨hs₂, hheld₂⟩ := settled_of_nil hq₂
  have hheld₁ : doc₁.held ⊆ doc₂.applied := by
    rintro _ ⟨b, hb, rfl⟩
    rw [hq₁] at hb
    exact mem_changes_iff.mp (List.mem_singleton.mp hb ▸ hc₂)
  have hord := orderly_new (B := headScheme) h₁.wf.1 hwf₂ hs₁ hs₂ hheld₁
    (hheld₂ ▸ Set.empty_subset _) hclash
  obtain ⟨rounds, d₁, d₂, hrun⟩ : ∃ rounds d₁ d₂, syncLoop byteFormat rounds
      ⟨.closed doc₁ .inactive, .new headScheme⟩ ⟨.closed doc₂ .inactive, .new headScheme⟩ =
        .returned d₁ d₂ :=
    (hord.ends byteFormat).returns hord (logFollows_of_subset (Finset.empty_subset _))
      (logFollows_of_subset (Finset.empty_subset _))
  refine ⟨doc₁, doc₂, c, rounds, d₁, d₂, hq₁, ⟨_, hdep, hmissing⟩, hrun,
    (amSync_brings_iff rfl rfl h₁ h₂ hrun).mpr
      (Or.inr (Or.inr (Or.inr (Or.inr ⟨fun x hx => ?_, Or.inl fun x hx => ?_⟩))))⟩
  · obtain ⟨⟨b, hb, hd⟩ | hx, -⟩ := mem_getMissingDeps.mp hx
    · exact hwf₂.closed (dep_hash.mpr hd) (hheld₁ (mem_hashesOf.mpr hb))
    · cases hx
  · rw [getMissingDeps_of_queue_nil hq₂] at hx
    cases hx

/-- Where nobody has what a change waits for, the document that holds it back does not get what
the other one has. -/
theorem amSync_brings_orphan :
    ∃ (doc₁ doc₂ : Automerge (changeLog ByteHash ℕ ℕ)) (c : Change ByteHash ℕ ℕ) (rounds : ℕ)
      (d₁ d₂ : AutoCommit (changeLog ByteHash ℕ ℕ)), Reachable (.ofDoc doc₁) ∧
      Reachable (.ofDoc doc₂) ∧ doc₁.queue = [c] ∧ doc₂.queue = [] ∧
      (∃ x ∈ c.deps, x ∉ doc₁.known ∧ x ∉ doc₂.known) ∧
      amSync byteFormat headScheme rounds (.ofDoc doc₁) (.ofDoc doc₂) = .returned d₁ d₂ ∧
      ∃ b ∈ doc₂.changeGraph.changes, b ∉ d₁.doc.changeGraph.changes := by
  obtain ⟨doc₁, _, c, h₁, -, hq₁, -, hch₁, -, hactor, hdep, hmissing, -⟩ := exists_waiting
  obtain ⟨doc₂, -, h₂, hq₂, hch₂⟩ := editedDoc_closed 3
  have hwf₁ : doc₁.WF := h₁.wf.1
  have hwf₂ : doc₂.WF := h₂.wf.1
  have hmem₂ : ∀ b, b ∈ doc₂.changeGraph.changes ↔ b = ⟨3, 1, 1, [], [3]⟩ := fun b => by
    rw [hch₂, List.mem_singleton]
  have hknown₂ : ∀ b : Change ByteHash ℕ ℕ, b.hash ∈ doc₂.known → b = ⟨3, 1, 1, [], [3]⟩ := by
    rintro b (hb | hb)
    · exact (hmem₂ b).mp (mem_changes_iff.mpr hb)
    · rw [held, hq₂, hashesOf_nil] at hb
      cases hb
  have hclash : NoClash {b : Change ByteHash ℕ ℕ | b.hash ∈ doc₁.known ∪ doc₂.known} := by
    have hall : ∀ b : Change ByteHash ℕ ℕ, b.hash ∈ doc₁.known ∪ doc₂.known →
        b = ⟨1, 1, 1, [], [1]⟩ ∨ b = c ∨ b = ⟨3, 1, 1, [], [3]⟩ := by
      rintro b ((hb | hb) | hb)
      · exact Or.inl ((hch₁ b).mp (mem_changes_iff.mpr hb))
      · rw [held, hq₁] at hb
        exact Or.inr (Or.inl (List.mem_singleton.mp (mem_hashesOf.mp hb)))
      · exact Or.inr (Or.inr (hknown₂ b hb))
    intro b hb d hd hsame _
    rcases hall b hb with rfl | rfl | rfl <;> rcases hall d hd with rfl | rfl | rfl <;>
      first
        | rfl
        | cases hsame
        | exact absurd (hsame.symm.trans hactor) (by decide)
        | exact absurd (hsame.trans hactor) (by decide)
  -- each document has one head, its own change
  have hone : ∀ {doc : Automerge (changeLog ByteHash ℕ ℕ)} {a : ℕ}, doc.WF →
      (∀ b, b ∈ doc.changeGraph.changes ↔ b = ⟨a, 1, 1, [], [a]⟩) →
      (⟨a, 1, 1, [], [a]⟩ : Change ByteHash ℕ ℕ).hash ∈ doc.getHeads := by
    intro doc a hwf hch
    refine (mem_getHeads hwf).mpr ⟨mem_changes_iff.mp ((hch _).mpr rfl), fun b hb => ?_⟩
    rw [(hch b).mp hb]
    exact List.not_mem_nil
  have hne : doc₁.getHeads ≠ doc₂.getHeads := fun heq => by
    have happ := ((mem_getHeads hwf₂).mp (heq ▸ hone hwf₁ hch₁)).1
    cases (hmem₂ _).mp (mem_changes_iff.mpr happ)
  have hanswered : ∀ x ∈ doc₂.getMissingDeps [], x ∈ doc₁.applied := fun x hx => by
    rw [getMissingDeps_of_queue_nil hq₂] at hx
    cases hx
  obtain ⟨rounds, log₁, doc₂', log₂, hrun⟩ : ∃ rounds log₁ doc₂' log₂,
      amSync byteFormat headScheme rounds (.ofDoc doc₁) (.ofDoc doc₂) =
        .returned (.closed doc₁ log₁) (.closed doc₂' log₂) :=
    amSync_stuck rfl rfl hwf₁ hwf₂ (Finset.empty_subset _)
      (List.ne_nil_of_mem (hone hwf₁ hch₁)) (List.ne_nil_of_mem (hone hwf₂ hmem₂)) hne hanswered
      hclash
      (mem_getMissingDeps.mpr ⟨Or.inl ⟨c, hq₁ ▸ List.mem_singleton_self c, hdep⟩, hmissing⟩)
      fun hx => by cases hknown₂ _ hx
  refine ⟨doc₁, doc₂, c, rounds, _, _, h₁, h₂, hq₁, hq₂, ⟨_, hdep, hmissing, fun hx => by
    cases hknown₂ _ hx⟩, hrun, _, (hmem₂ _).mpr rfl, fun hb => ?_⟩
  cases (hch₁ _).mp hb

end AutomergeR
