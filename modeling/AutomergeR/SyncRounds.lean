import AutomergeR.ApplyRawChanges
import AutomergeR.SyncLogs

/-! # The first rounds of `am_sync`

What a round does to two documents whatever they hold back (`syncLoop_cases`, `syncLoop_grows`),
and what the first two rounds are: an exchange of greetings (`syncRound_new`), and the answers to
them, of which there is none where the other asks for a hash the peer does not have
(`generate_unanswered`).
-/

namespace AutomergeR

open Automerge

variable {H A P : Type} [LinearOrder H] [LinearOrder A] [ChangeHash H A P]
  {M : OpSetModel H A P} {fmt : ChunkFormat H A P} {B : BloomScheme H}

/-! ## Documents only grow -/

namespace Automerge

variable {doc other doc' other' : Automerge M} {st ost st' ost' mid : SyncState B}
  {out inn : Option (Message B)} {msg : Message B} {x : H}

/-- The other peer asks for nothing twice. -/
def AsksOnce (st : SyncState B) : Prop := ∀ ns, st.theirNeed = some ns → ns.Nodup

omit [LinearOrder H] in
theorem asksOnce_new : AsksOnce (.new B : SyncState B) := fun _ hns => nomatch hns

theorem generate_carries (h : doc.WF) (hst : AsksOnce st)
    (hgen : doc.generateSyncMessage fmt st = some (mid, some msg)) :
    msg.need.Nodup ∧ ∃ hashes, doc.Carries fmt msg.changes hashes := by
  rcases generate_cases fmt hgen with ⟨_, _, hm⟩ | ⟨_, _, hm⟩ | ⟨ch, hs, v, _, hch, hrest⟩
  · obtain rfl : msg = doc.resetMessage := by simpa using hm
    exact ⟨List.nodup_nil, [], .changes [] (List.nil_subset _) rfl rfl fun _ => rfl⟩
  · cases hm
  · rcases hrest with ⟨_, _, hm⟩ | ⟨_, _, hm⟩
    · cases hm
    · obtain rfl : msg = doc.message st ch v := by simpa using hm
      exact ⟨getMissingDeps_nodup _, hs, (changesToSend_carries fmt h hst hch).1⟩

/-- A half round only adds changes, whatever can be answered. -/
theorem Exchange.grows (h : doc.WF) (ho : other.WF) (hst : AsksOnce st) (hso : AsksOnce ost)
    (hx : Exchange fmt doc st out inn doc' st')
    (hxo : Exchange fmt other ost inn out other' ost') :
    Gains other doc doc' ∧ AsksOnce st' := by
  obtain ⟨mid, hgen, hin⟩ := hx
  rcases inn with _ | msg
  · obtain ⟨rfl, rfl⟩ := hin
    refine ⟨⟨h, id, subset_rfl, subset_rfl, Or.inl Set.subset_union_left⟩, fun ns hns => ?_⟩
    exact hst ns ((generate_told fmt hgen).2.2 ▸ hns)
  · obtain ⟨omid, hogen, _⟩ := hxo
    obtain ⟨hnd, hashes, hc⟩ := generate_carries ho hso hogen
    obtain ⟨rfl, hrec⟩ := receive_spec h ho hc hin
    refine ⟨⟨hrec.wf, hrec.settled, hrec.applied, hrec.known, hrec.source⟩, fun ns hns => ?_⟩
    obtain rfl : msg.need = ns := by simpa [noteMessage] using hns
    exact hnd

end Automerge

theorem heard_of_decode {doc doc' : Automerge M} {log log' : PatchLog A} {mid st' : SyncState B}
    {inn : Option (Message B)} (h : Peer.decode fmt ⟨.closed doc log, mid⟩ inn =
      some ⟨.closed doc' log', st'⟩) : doc.Heard fmt mid inn doc' st' := by
  obtain ⟨_, _, _, heq, hin⟩ := decode_eq_some h
  cases heq
  exact hin

/-- A run that returns has one more round, or ends here because nobody speaks. -/
theorem syncLoop_cases {doc₁ doc₂ : Automerge M} {log₁ log₂ : PatchLog A} {st₁ st₂ : SyncState B}
    {d₁ d₂ : AutoCommit M} {rounds : ℕ}
    (h : syncLoop fmt rounds ⟨.closed doc₁ log₁, st₁⟩ ⟨.closed doc₂ log₂, st₂⟩ =
      .returned d₁ d₂) :
    (∃ mid₁ mid₂, doc₁.generateSyncMessage fmt st₁ = some (mid₁, none) ∧
      doc₂.generateSyncMessage fmt st₂ = some (mid₂, none) ∧ d₁ = .closed doc₁ log₁ ∧
      d₂ = .closed doc₂ log₂) ∨
    ∃ rounds' mid₁ msg₁ mid₂ msg₂ doc₁' log₁' st₁' doc₂' log₂' st₂', rounds = rounds' + 1 ∧
      doc₁.generateSyncMessage fmt st₁ = some (mid₁, msg₁) ∧
      doc₂.generateSyncMessage fmt st₂ = some (mid₂, msg₂) ∧
      Peer.decode fmt ⟨.closed doc₁ log₁, mid₁⟩ msg₂ = some ⟨.closed doc₁' log₁', st₁'⟩ ∧
      Peer.decode fmt ⟨.closed doc₂ log₂, mid₂⟩ msg₁ = some ⟨.closed doc₂' log₂', st₂'⟩ ∧
      syncLoop fmt rounds' ⟨.closed doc₁' log₁', st₁'⟩ ⟨.closed doc₂' log₂', st₂'⟩ =
        .returned d₁ d₂ := by
  rcases rounds with _ | rounds
  · cases h
  rw [syncLoop] at h
  rcases hround : syncRound fmt ⟨.closed doc₁ log₁, st₁⟩ ⟨.closed doc₂ log₂, st₂⟩ with
    ⟨p, q⟩ | ⟨e₁, e₂⟩ | _
  · obtain ⟨mid₁, msg₁, mid₂, msg₂, hgen₁, hgen₂, -, hp, hq⟩ := syncRound_decodes hround
    obtain ⟨doc₁', log₁', st₁', rfl, -⟩ := decode_eq_some hp
    obtain ⟨doc₂', log₂', st₂', rfl, -⟩ := decode_eq_some hq
    simp only [hround] at h
    exact Or.inr ⟨rounds, mid₁, msg₁, mid₂, msg₂, doc₁', log₁', st₁', doc₂', log₂', st₂', rfl,
      hgen₁, hgen₂, hp, hq, h⟩
  · obtain ⟨rfl, rfl, mid₁, mid₂, hgen₁, hgen₂⟩ := syncRound_returned hround
    simp only [hround, SyncRun.returned.injEq] at h
    exact Or.inl ⟨mid₁, mid₂, hgen₁, hgen₂, h.1.symm, h.2.symm⟩
  · simp [hround] at h

/-- **Whatever a run does**, nothing applied is lost. -/
theorem syncLoop_grows (rounds : ℕ) {doc₁ doc₂ : Automerge M} {log₁ log₂ : PatchLog A}
    {st₁ st₂ : SyncState B} {d₁ d₂ : AutoCommit M} (h₁ : doc₁.WF) (h₂ : doc₂.WF)
    (hst₁ : AsksOnce st₁) (hst₂ : AsksOnce st₂)
    (h : syncLoop fmt rounds ⟨.closed doc₁ log₁, st₁⟩ ⟨.closed doc₂ log₂, st₂⟩ =
      .returned d₁ d₂) : d₁.doc.WF ∧ d₂.doc.WF ∧ doc₁.applied ⊆ d₁.doc.applied ∧
      doc₂.applied ⊆ d₂.doc.applied := by
  induction rounds generalizing doc₁ doc₂ log₁ log₂ st₁ st₂ with
  | zero => cases h
  | succ rounds ih =>
    rcases syncLoop_cases h with ⟨_, _, _, _, rfl, rfl⟩ |
      ⟨_, _, _, _, _, _, _, _, _, _, _, hr, hgen₁, hgen₂, hdec₁, hdec₂, h⟩
    · exact ⟨h₁, h₂, subset_rfl, subset_rfl⟩
    · obtain rfl := Nat.succ.inj hr
      have hx₁ : Exchange fmt _ _ _ _ _ _ := ⟨_, hgen₁, heard_of_decode hdec₁⟩
      have hx₂ : Exchange fmt _ _ _ _ _ _ := ⟨_, hgen₂, heard_of_decode hdec₂⟩
      obtain ⟨hg₁, hst₁'⟩ := hx₁.grows h₁ h₂ hst₁ hst₂ hx₂
      obtain ⟨hg₂, hst₂'⟩ := hx₂.grows h₂ h₁ hst₂ hst₁ hx₁
      obtain ⟨hwf₁, hwf₂, hs₁, hs₂⟩ := ih hg₁.wf hg₂.wf hst₁' hst₂' h
      exact ⟨hwf₁, hwf₂, hg₁.applied.trans hs₁, hg₂.applied.trans hs₂⟩

section Steps

variable {doc₁ doc₂ : Automerge M} {log₁ log₂ : PatchLog A} {st₁ st₂ mid₁ mid₂ : SyncState B}
  {msg₁ msg₂ : Option (Message B)} {d₁ d₂ : AutoCommit M} {rounds : ℕ}

/-- A round in which somebody speaks is not the last. -/
theorem syncLoop_step (hgen₁ : doc₁.generateSyncMessage fmt st₁ = some (mid₁, msg₁))
    (hgen₂ : doc₂.generateSyncMessage fmt st₂ = some (mid₂, msg₂))
    (hspoke : ¬ (msg₁ = none ∧ msg₂ = none))
    (h : syncLoop fmt rounds ⟨.closed doc₁ log₁, st₁⟩ ⟨.closed doc₂ log₂, st₂⟩ =
      .returned d₁ d₂) : ∃ rounds' doc₁' log₁' st₁' doc₂' log₂' st₂',
      Peer.decode fmt ⟨.closed doc₁ log₁, mid₁⟩ msg₂ = some ⟨.closed doc₁' log₁', st₁'⟩ ∧
      Peer.decode fmt ⟨.closed doc₂ log₂, mid₂⟩ msg₁ = some ⟨.closed doc₂' log₂', st₂'⟩ ∧
      syncLoop fmt rounds' ⟨.closed doc₁' log₁', st₁'⟩ ⟨.closed doc₂' log₂', st₂'⟩ =
        .returned d₁ d₂ := by
  rcases syncLoop_cases h with ⟨_, _, hs₁, hs₂, _⟩ |
    ⟨rounds', _, _, _, _, doc₁', log₁', st₁', doc₂', log₂', st₂', _, hs₁, hs₂, hin₁, hin₂, h⟩
  all_goals
    rw [hgen₁, Option.some.injEq, Prod.mk.injEq] at hs₁
    rw [hgen₂, Option.some.injEq, Prod.mk.injEq] at hs₂
    obtain ⟨rfl, rfl⟩ := hs₁
    obtain ⟨rfl, rfl⟩ := hs₂
  · exact absurd ⟨rfl, rfl⟩ hspoke
  · exact ⟨rounds', doc₁', log₁', st₁', doc₂', log₂', st₂', hin₁, hin₂, h⟩

theorem syncLoop_silent (hgen₁ : doc₁.generateSyncMessage fmt st₁ = some (mid₁, none))
    (hgen₂ : doc₂.generateSyncMessage fmt st₂ = some (mid₂, none))
    (h : syncLoop fmt rounds ⟨.closed doc₁ log₁, st₁⟩ ⟨.closed doc₂ log₂, st₂⟩ =
      .returned d₁ d₂) : d₁ = .closed doc₁ log₁ ∧ d₂ = .closed doc₂ log₂ := by
  rcases rounds with _ | rounds
  · cases h
  · rw [syncLoop_of_silent rounds hgen₁ hgen₂, SyncRun.returned.injEq] at h
    exact ⟨h.1.symm, h.2.symm⟩

end Steps

/-! ## The greeting -/

namespace Automerge

variable {doc other doc' : Automerge M} {st : SyncState B} {x : H}

theorem generate_new (doc : Automerge M) :
    doc.generateSyncMessage fmt (.new B) =
      some (doc.sent (.new B) [], some (doc.message (.new B) [] .v1)) := by
  have hch : doc.changesToSend fmt (.new B) = some (some ([], [], .v1)) := rfl
  have hreset : doc.mustReset (.new B) = false := rfl
  rw [generateSyncMessage, if_neg (by simp [hreset]), hch]
  simp [nothingToSend, SyncState.new, message]

/-- What `doc` notes down once both have introduced themselves. -/
def greeted (B : BloomScheme H) (doc other : Automerge M) : SyncState B :=
  doc.noteMessage doc.getHeads (doc.sent (.new B) []) (other.message (.new B) [] .v1)

theorem greeted_sentHashes (B : BloomScheme H) (doc other : Automerge M) :
    (doc.greeted B other).sentHashes = ∅ :=
  Finset.subset_empty.mp
    (noteMessage_sentHashes doc.getHeads : _ ⊆ (doc.sent (.new B) []).sentHashes)

theorem greeted_supportsV2 (B : BloomScheme H) (doc other : Automerge M) :
    (doc.greeted B other).supportsV2Messages = true := rfl

theorem asksOnce_greeted : AsksOnce (doc.greeted B other) := by
  rintro ns ⟨⟩
  exact getMissingDeps_nodup _

omit [LinearOrder A] in
theorem noteMessage_lastSentHeads_nil {heads : List H} {msg : Message B} (h : msg.heads = []) :
    (doc.noteMessage heads st msg).lastSentHeads = [] := by
  simp [noteMessage, h]

theorem greeted_shared (ho : other.WF) : ∀ x ∈ (doc.greeted B other).sharedHeads,
    x ∈ other.applied := by
  intro x hx
  have hmem : ∀ z ∈ other.getHeads, z ∈ other.applied := fun z hz => ((mem_getHeads ho).mp hz).1
  simp only [greeted, noteMessage] at hx
  split at hx
  · exact hmem x hx
  · simp only [message, List.isEmpty_nil, if_true, sent, SyncState.new, List.nil_append,
      Finset.mem_sort, List.mem_toFinset] at hx
    exact hmem x (List.mem_of_mem_filter hx)

theorem greeted_mustReset (B : BloomScheme H) (doc other : Automerge M) :
    doc.mustReset (doc.greeted B other) = false := by
  refine mustReset_eq_false fun hvs hhvs hv hhv y hy => ?_
  obtain rfl : other.ourHave (.new B) = hvs := by simpa [greeted, noteMessage, message] using hhvs
  rw [ourHave_lastSync hv hhv] at hy
  cases hy

end Automerge

/-! ## The answer -/

namespace Automerge

variable {doc other doc' : Automerge M} {st mid st' : SyncState B} {x : H}

/-- Asked for a hash it does not have, a peer says nothing, whatever else it could
send. -/
theorem generate_stuck (hreset : doc.mustReset st = false) {hs ns : List H}
    {hvs : List (Have B)} (hth : st.theirHeads = some hs) (hne : hs ≠ [])
    (hhave : st.theirHave = some hvs) (hneed : st.theirNeed = some ns) (hx : x ∈ ns)
    (hsent : x ∉ st.sentHashes) (hxn : x ∉ doc.applied) :
    doc.generateSyncMessage fmt st = some (st, none) := by
  have hmem : x ∈ (doc.getHashesToSend hvs ns).filter (· ∉ st.sentHashes) :=
    List.mem_filter.mpr ⟨need_subset_getHashesToSend doc hvs ns hx, by simpa using hsent⟩
  obtain ⟨y, hy⟩ := getChangesByHashes_missing hmem hxn
  have hch : doc.changesToSend fmt st = some none := by
    unfold changesToSend
    simp only [hhave, hneed, hth, Option.some.injEq, hne, false_and, if_false, hy]
  rw [generateSyncMessage, if_neg (by simp [hreset]), hch]

/-- A peer waiting for an answer to what it last said is silent. -/
theorem generate_waiting (h : doc.WF) (hreset : doc.mustReset st = false)
    (hneed : ∀ ns, st.theirNeed = some ns → ns.Nodup ∧ ∀ x ∈ ns, x ∈ doc.applied)
    (hlast : st.lastSentHeads = doc.getHeads) (hresp : st.haveResponded = true)
    (hf : st.inFlight = true) : doc.generateSyncMessage fmt st = some (st, none) := by
  obtain ⟨_, _, _, hch, _⟩ := changesToSend_spec fmt h hneed
  rw [generateSyncMessage, if_neg (by simp [hreset]), hch]
  simp [nothingToSend, hlast, hresp, hf]

/-- The hashes `doc` sends in answer to the greeting of `other`. -/
def answer (B : BloomScheme H) (doc other : Automerge M) : List H :=
  doc.getHashesToSend (other.ourHave (.new B)) (other.getMissingDeps [])

/-- What `doc` has applied once it has received the changes with these hashes. -/
def appliedWith (doc : Automerge M) (hashes : List H) : Set H :=
  if hashes = [] then doc.applied else Causal.Core (Dep A P) (doc.known ∪ {x | x ∈ hashes})

omit [LinearOrder A] in
theorem subset_appliedWith (h : doc.WF) (hashes : List H) :
    doc.applied ⊆ doc.appliedWith hashes := by
  unfold appliedWith
  split
  · exact subset_rfl
  · exact h.closed.subset_core fun x hx => Or.inl (Or.inl hx)

variable (fmt) in
/-- A peer that has what the other waits for answers its greeting. -/
theorem generate_answer (h : doc.WF) (hheads : other.getHeads ≠ [])
    (hne : other.getHeads ≠ doc.getHeads)
    (hans : ∀ x ∈ other.getMissingDeps [], x ∈ doc.applied) :
    ∃ cs : List (Change H A P), cs ⊆ doc.changeGraph.changes ∧
      cs.map Change.hash = doc.answer B other ∧
      doc.generateSyncMessage fmt (doc.greeted B other) =
        some (doc.sent (doc.greeted B other) (doc.answer B other),
          some (doc.message (doc.greeted B other) (newV2 (cs.flatMap fmt.rawBytes)) .v2)) := by
  obtain ⟨cs, hget, hmap, hsub⟩ := getChangesByHashes_spec h (doc.answer B other)
    (getHashesToSend_nodup h (getMissingDeps_nodup _))
    fun x hx => (getHashesToSend_sound h hx).elim (hans x) id
  refine ⟨cs, hsub, hmap, ?_⟩
  have hth : (doc.greeted B other).theirHeads = some other.getHeads := rfl
  have hhave : (doc.greeted B other).theirHave = some (other.ourHave (.new B)) := rfl
  have hneed : (doc.greeted B other).theirNeed = some (other.getMissingDeps []) := rfl
  have hall : (doc.getHashesToSend (other.ourHave (.new B)) (other.getMissingDeps [])).filter
      (· ∉ (doc.greeted B other).sentHashes) = doc.answer B other := by
    simp [greeted_sentHashes, answer]
  have hch : doc.changesToSend fmt (doc.greeted B other) =
      some (some (newV2 (cs.flatMap fmt.rawBytes), doc.answer B other, .v2)) := by
    unfold changesToSend
    simp only [hth, hhave, hneed, Option.some.injEq, hheads, false_and, if_false, hall, hget,
      greeted_supportsV2, if_true]
  rw [generateSyncMessage, if_neg (by simp [greeted_mustReset]), hch]
  simp only [loud_of_heads hth hne rfl (doc.answer B other), Bool.false_eq_true, if_false]
  rfl

theorem generate_unanswered (hheads : other.getHeads ≠ []) (hx : x ∈ other.getMissingDeps [])
    (hxn : x ∉ doc.applied) :
    doc.generateSyncMessage fmt (doc.greeted B other) = some (doc.greeted B other, none) :=
  generate_stuck (greeted_mustReset B doc other) rfl hheads rfl rfl hx
    (by rw [greeted_sentHashes]; exact Finset.notMem_empty x) hxn

/-- What an answer does. -/
theorem receive_answer (h : doc.WF) (ho : other.WF) {cs : List (Change H A P)}
    (hsub : cs ⊆ other.changeGraph.changes) {version : MessageVersion}
    (hrecv : doc.receiveSyncMessage fmt mid
      (other.message st (newV2 (cs.flatMap fmt.rawBytes)) version) = .ok (doc', st')) :
    st' = doc'.noteMessage doc.getHeads mid
        (other.message st (newV2 (cs.flatMap fmt.rawBytes)) version) ∧
      doc'.WF ∧ doc'.applied = doc.appliedWith (cs.map Change.hash) ∧ doc.known ⊆ doc'.known ∧
      doc'.known ⊆ doc.known ∪ other.applied := by
  have hcarries : other.Carries fmt
      (other.message st (newV2 (cs.flatMap fmt.rawBytes)) version).changes _ :=
    carries_newV2 fmt hsub
  obtain ⟨hst, hrec⟩ := receive_spec h ho hcarries hrecv
  by_cases hcs : cs = []
  · subst hcs
    rw [receiveSyncMessage_nil fmt rfl] at hrecv
    obtain ⟨rfl, -⟩ : doc = doc' ∧ _ := by simpa using hrecv
    exact ⟨hst, h, by simp [appliedWith], subset_rfl, Set.subset_union_left⟩
  · have hbytes : newV2 (cs.flatMap fmt.rawBytes) = [cs.flatMap fmt.rawBytes] :=
      if_pos (flatMap_rawBytes_length fmt hcs)
    have hne : (other.message st (newV2 (cs.flatMap fmt.rawBytes)) version).changes ≠ [] := by
      simp [message, hbytes]
    rw [receiveSyncMessage_changes fmt hne] at hrecv
    have hflat : (other.message st (newV2 (cs.flatMap fmt.rawBytes)) version).changes.flatten =
        cs.flatMap fmt.rawBytes := by simp [message, hbytes]
    rw [hflat] at hrecv
    rcases hload : doc.loadIncremental fmt (cs.flatMap fmt.rawBytes) with d | ⟨e, d⟩ | _
    · rw [hload] at hrecv
      obtain ⟨rfl, -⟩ : d = doc' ∧ _ := by simpa using hrecv
      have htakes := (loadIncremental_rawBytes fmt h cs
        fun c hc => ho.honest c (Or.inl (hsub hc))).1 d hload
      refine ⟨hst, hrec.wf, ?_, hrec.known, ?_⟩
      · rw [htakes.applied_eq, appliedWith, if_neg (by simpa using hcs)]
        congr 2
        ext x
        simp [hashesOf]
      · rw [htakes.known, applied_eq_hashesOf]
        exact Set.union_subset_union_right _ (hashesOf_mono hsub)
    · rw [hload] at hrecv
      cases hrecv
    · rw [hload] at hrecv
      cases hrecv

/-! ## A whole document -/

variable (fmt) in
/-- Told that the other has nothing applied, a peer sends all it has. -/
theorem generate_document {hvs : List (Have B)} {ns : List H} (hreset : doc.mustReset st = false)
    (hth : st.theirHeads = some []) (hv2 : st.supportsV2Messages = true)
    (hhave : st.theirHave = some hvs) (hneed : st.theirNeed = some ns)
    (hlast : st.lastSentHeads = []) (hne : doc.getHeads ≠ []) :
    doc.generateSyncMessage fmt st = some (doc.sent st (doc.changeGraph.getHashes []),
      some (doc.message st (newV2 (doc.save fmt)) .v2)) := by
  have hch : doc.changesToSend fmt st =
      some (some (newV2 (doc.save fmt), doc.changeGraph.getHashes [], .v2)) := by
    unfold changesToSend
    simp only [hth, hhave, hneed, hv2, and_self, if_true]
  have hloud : doc.nothingToSend st (doc.changeGraph.getHashes []) = false := by
    simp [nothingToSend, hlast, hne.symm]
  rw [generateSyncMessage, if_neg (by simp [hreset]), hch]
  simp only [hloud, Bool.false_eq_true, if_false]
  rfl

variable (fmt) in
theorem generate_greeted_nil (hn : other.getHeads = []) (hne : doc.getHeads ≠ []) :
    doc.generateSyncMessage fmt (doc.greeted B other) =
      some (doc.sent (doc.greeted B other) (doc.changeGraph.getHashes []),
        some (doc.message (doc.greeted B other) (newV2 (doc.save fmt)) .v2)) :=
  generate_document fmt (greeted_mustReset B doc other) (congrArg some hn) rfl rfl rfl
    (noteMessage_lastSentHeads_nil hn) hne

theorem newV2_save (doc : Automerge M) : newV2 (doc.save fmt) = [doc.save fmt] := by
  refine if_pos ?_
  have := fmt.documentBytes_length (sortHashes doc.changeGraph.heads) doc.changeGraph.changes
  rw [save, List.length_append]
  omega

theorem receive_document (h : doc.WF) (ho : other.WF) {version : MessageVersion}
    (hrecv : doc.receiveSyncMessage fmt mid (other.message st (newV2 (other.save fmt)) version) =
      .ok (doc', st')) : doc.Takes doc' other.known := by
  rw [newV2_save, receiveSyncMessage_changes fmt (by simp [message])] at hrecv
  have hflat : (other.message st [other.save fmt] version).changes.flatten = other.save fmt := by
    simp [message]
  rw [hflat] at hrecv
  rcases hload : doc.loadIncremental fmt (other.save fmt) with d | ⟨e, d⟩ | _
  · rw [hload] at hrecv
    obtain ⟨rfl, -⟩ : d = doc' ∧ _ := by simpa using hrecv
    exact (loadIncremental_save fmt h ho).1 d hload
  · rw [hload] at hrecv
    cases hrecv
  · rw [hload] at hrecv
    cases hrecv

end Automerge

/-- The first round is an exchange of greetings. -/
theorem syncRound_new (doc₁ doc₂ : Automerge M) (log₁ log₂ : PatchLog A) :
    syncRound fmt ⟨.closed doc₁ log₁, .new B⟩ ⟨.closed doc₂ log₂, .new B⟩ =
      .running ⟨.closed doc₁ log₁, doc₁.greeted B doc₂⟩
        ⟨.closed doc₂ log₂, doc₂.greeted B doc₁⟩ := by
  simp [syncRound, Peer.encode, Peer.decode, generate_new, receiveSyncMessageLogPatches, message,
    greeted]

end AutomergeR
