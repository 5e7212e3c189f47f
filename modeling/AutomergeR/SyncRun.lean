import AutomergeR.SyncMessages

/-! # Runs of `am_sync`

`Side` is what one peer's state may say about the other, `Talk` both sides of it
together with the fact that not both wait for an answer. A round keeps it
(`Talk.round`), and when neither peer has anything to say the two documents have
applied the same changes (`Talk.agree`), so every run that returns ends in agreement
(`syncLoop_returned`). The one thing the invariant asks of the documents is that
what either waits for can be answered (`Answerable`).
-/

namespace AutomergeR

variable {H A P : Type} [LinearOrder H] [LinearOrder A] [ChangeHash H A P]
  {M : OpSetModel H A P} {fmt : ChunkFormat H A P} {B : BloomScheme H}

namespace Automerge

/-- Whatever `doc` waits for, `other` has applied. -/
def Answerable (doc other : Automerge M) : Prop :=
  ∀ c ∈ doc.queue, ∀ d ∈ c.deps, d ∈ doc.known ∪ other.applied

/-- What the state `st` of `doc` may say about `other`, and what `other` may be told. -/
structure Side (doc : Automerge M) (st : SyncState B) (other : Automerge M)
    (ost : SyncState B) : Prop where
  wf : doc.WF
  heads : ∀ hs, st.theirHeads = some hs → ∀ x ∈ hs, x ∈ other.applied
  need : ∀ ns, st.theirNeed = some ns → ns.Nodup ∧ ∀ x ∈ ns, x ∈ doc.applied
  awaiting : st.inFlight = true → ost.theirHeads = some doc.getHeads
  answerable : doc.Answerable other

structure Talk (doc₁ : Automerge M) (st₁ : SyncState B) (doc₂ : Automerge M)
    (st₂ : SyncState B) : Prop where
  side₁ : Side doc₁ st₁ doc₂ st₂
  side₂ : Side doc₂ st₂ doc₁ st₁
  oneInFlight : ¬ (st₁.inFlight = true ∧ st₂.inFlight = true)

/-- What hearing `inn`, if anything, leaves a peer with. -/
def Heard (fmt : ChunkFormat H A P) (doc : Automerge M) (st : SyncState B)
    (inn : Option (Message B)) (doc' : Automerge M) (st' : SyncState B) : Prop :=
  match inn with
  | none => doc' = doc ∧ st' = st
  | some msg => doc.receiveSyncMessage fmt st msg = .ok (doc', st')

/-- One peer's half of a round: it says `out`, then hears `inn`. -/
def Exchange (fmt : ChunkFormat H A P) (doc : Automerge M) (st : SyncState B)
    (out inn : Option (Message B)) (doc' : Automerge M) (st' : SyncState B) : Prop :=
  ∃ mid, doc.generateSyncMessage fmt st = some (mid, out) ∧ doc.Heard fmt mid inn doc' st'

variable {doc other doc' other' : Automerge M} {st ost st' ost' mid : SyncState B}
  {out inn : Option (Message B)} {msg : Message B}

/-! ## Saying -/

/-- The message a peer sends, the hashes it carries, and what the peer notes about
having sent it. -/
structure Says (fmt : ChunkFormat H A P) (doc : Automerge M) (st mid : SyncState B)
    (other : Automerge M) (msg : Message B) (hashes : List H) : Prop where
  heads : msg.heads = doc.getHeads
  need : msg.need.Nodup ∧ ∀ x ∈ msg.need, x ∈ other.applied
  haves : ∀ hv ∈ msg.haves, ∀ x ∈ hv.lastSync, x ∈ st.sharedHeads
  carries : doc.Carries fmt msg.changes hashes
  theirHeads : mid.theirHeads = st.theirHeads
  theirNeed : mid.theirNeed = st.theirNeed
  theirHave : mid.theirHave = st.theirHave
  sharedHeads : mid.sharedHeads = st.sharedHeads
  sentHashes : ∀ x ∈ mid.sentHashes, x ∈ st.sentHashes ∨ x ∈ hashes
  proper : doc.mustReset st = false → ∃ changes version,
    doc.changesToSend fmt st = some (some (changes, hashes, version)) ∧
      doc.nothingToSend st hashes = false ∧ mid = doc.sent st hashes ∧
      msg = doc.message st changes version

omit [LinearOrder A] in
theorem ourNeed_answerable (h : doc.Side st other ost) :
    (doc.ourNeed st).Nodup ∧ ∀ x ∈ doc.ourNeed st, x ∈ other.applied := by
  refine ⟨getMissingDeps_nodup _, fun x hx => ?_⟩
  obtain ⟨hx | hx, hxn⟩ := mem_getMissingDeps.mp hx
  · obtain ⟨c, hc, hd⟩ := hx
    exact (h.answerable c hc x hd).resolve_left hxn
  · rcases hheads : st.theirHeads with _ | hs
    · simp [hheads] at hx
    · exact h.heads hs hheads x (by simpa [hheads] using hx)

/-- Nothing asked of the peer is unknown to it. -/
theorem changesToSend_ne_none (h : doc.Side st other ost) :
    doc.changesToSend fmt st ≠ some none := by
  obtain ⟨_, _, _, hch, _⟩ := changesToSend_spec fmt h.wf h.need
  rw [hch]
  simp

theorem ourHave_lastSync : ∀ hv ∈ doc.ourHave st, hv.lastSync = st.sharedHeads := by
  intro hv hhv
  unfold ourHave at hhv
  split at hhv
  · obtain rfl : hv = _ := by simpa using hhv
    rfl
  · cases hhv

theorem generate_says (h : doc.Side st other ost)
    (hgen : doc.generateSyncMessage fmt st = some (mid, some msg)) :
    ∃ hashes, Says fmt doc st mid other msg hashes := by
  rcases generate_cases fmt hgen with ⟨hreset, rfl, hm⟩ | ⟨hch, _⟩ | ⟨ch, hs, v, _, hch, hrest⟩
  · obtain rfl : msg = doc.resetMessage := by simpa using hm
    exact ⟨[], rfl, ⟨List.nodup_nil, by simp [resetMessage]⟩, by simp [resetMessage],
      .changes [] (List.nil_subset _) rfl rfl fun _ => rfl, rfl, rfl, rfl, rfl, fun _ => Or.inl,
      fun hno => by rw [hreset] at hno; cases hno⟩
  · exact absurd hch (changesToSend_ne_none h)
  · rcases hrest with ⟨_, _, hm⟩ | ⟨hsome, rfl, hm⟩
    · cases hm
    · obtain rfl : msg = doc.message st ch v := by simpa using hm
      obtain ⟨ch', hs', v', hch', hcarries, _⟩ := changesToSend_spec fmt h.wf h.need
      obtain ⟨rfl, rfl, rfl⟩ : ch = ch' ∧ hs = hs' ∧ v = v' := by simpa [hch] using hch'
      exact ⟨hs, rfl, ourNeed_answerable h, fun hv hhv x hx => ourHave_lastSync hv hhv ▸ hx,
        hcarries, rfl, rfl, rfl, rfl, fun x hx => by simpa [sent] using hx,
        fun _ => ⟨ch, v, hch, hsome, rfl, rfl⟩⟩

theorem generate_silent (h : doc.Side st other ost)
    (hgen : doc.generateSyncMessage fmt st = some (mid, none)) :
    mid = st ∧ ∃ changes hashes version,
      doc.changesToSend fmt st = some (some (changes, hashes, version)) ∧
      doc.nothingToSend st hashes = true := by
  rcases generate_cases fmt hgen with ⟨_, _, hm⟩ | ⟨hch, _⟩ | ⟨ch, hs, v, _, hch, hrest⟩
  · cases hm
  · exact absurd hch (changesToSend_ne_none h)
  · rcases hrest with ⟨hnothing, hmid, _⟩ | ⟨_, _, hm⟩
    · exact ⟨hmid, ch, hs, v, hch, hnothing⟩
    · cases hm

/-! ## Hearing -/

theorem receive_spec (h : doc.WF) (ho : other.WF) {hashes : List H}
    (hc : other.Carries fmt msg.changes hashes)
    (hrecv : doc.receiveSyncMessage fmt mid msg = .ok (doc', st')) :
    st' = doc'.noteMessage doc.getHeads mid msg ∧ other.Receives doc doc' hashes := by
  obtain ⟨hnil, hload⟩ := receives_of_carries h ho hc
  by_cases hempty : msg.changes = []
  · rw [receiveSyncMessage_nil fmt hempty] at hrecv
    cases hrecv
    exact ⟨rfl, hnil hempty⟩
  · rw [receiveSyncMessage_changes fmt hempty] at hrecv
    rcases hdoc : doc.loadIncremental fmt msg.changes.flatten with d | ⟨e, d⟩ | _
    · rw [hdoc] at hrecv
      cases hrecv
      exact ⟨rfl, (hload hempty).1 _ hdoc⟩
    · rw [hdoc] at hrecv
      cases hrecv
    · rw [hdoc] at hrecv
      cases hrecv

/-- What a half round does to the document and to the state. -/
theorem Exchange.spec (h : doc.Side st other ost) (ho : other.Side ost doc st)
    (hx : Exchange fmt doc st out inn doc' st') (hxo : Exchange fmt other ost inn out other' ost') :
    ∃ mid, doc.generateSyncMessage fmt st = some (mid, out) ∧
      ((inn = none ∧ doc' = doc ∧ st' = mid) ∨
        ∃ msg omid hashes, inn = some msg ∧
          other.generateSyncMessage fmt ost = some (omid, some msg) ∧
          Says fmt other ost omid doc msg hashes ∧ other.Receives doc doc' hashes ∧
          st' = doc'.noteMessage doc.getHeads mid msg) := by
  obtain ⟨mid, hgen, hin⟩ := hx
  refine ⟨mid, hgen, ?_⟩
  rcases inn with _ | msg
  · obtain ⟨rfl, rfl⟩ := hin
    exact Or.inl ⟨rfl, rfl, rfl⟩
  · obtain ⟨omid, hogen, _⟩ := hxo
    obtain ⟨hashes, hmsg⟩ := generate_says ho hogen
    obtain ⟨rfl, hrec⟩ := receive_spec h.wf ho.wf hmsg.carries hin
    exact Or.inr ⟨msg, omid, hashes, rfl, hogen, hmsg, hrec, rfl⟩

/-- What the state says about the other peer after a half round. -/
theorem Exchange.cases (h : doc.Side st other ost) (ho : other.Side ost doc st)
    (hx : Exchange fmt doc st out inn doc' st') (hxo : Exchange fmt other ost inn out other' ost') :
    (inn = none ∧ doc' = doc ∧ st'.theirHeads = st.theirHeads ∧ st'.theirNeed = st.theirNeed ∧
        (out = none → st' = st)) ∨
    ∃ msg hashes, inn = some msg ∧ other.Receives doc doc' hashes ∧
      st'.theirHeads = some other.getHeads ∧ st'.theirNeed = some msg.need ∧
      st'.inFlight = false ∧ msg.need.Nodup ∧ ∀ x ∈ msg.need, x ∈ doc.applied := by
  obtain ⟨mid, hgen, ⟨rfl, rfl, rfl⟩ | ⟨msg, omid, hashes, rfl, _, hmsg, hrec, rfl⟩⟩ :=
    hx.spec h ho hxo
  · rcases out with _ | m
    · obtain ⟨rfl, _⟩ := generate_silent h hgen
      exact Or.inl ⟨rfl, rfl, rfl, rfl, fun _ => rfl⟩
    · obtain ⟨_, hmsg⟩ := generate_says h hgen
      exact Or.inl ⟨rfl, rfl, hmsg.theirHeads, hmsg.theirNeed, fun hm => by cases hm⟩
  · exact Or.inr ⟨msg, hashes, rfl, hrec, congrArg some hmsg.heads, rfl, rfl, hmsg.need⟩

/-- A half round only adds changes, and only ones of the other peer. -/
structure Gains (other doc doc' : Automerge M) : Prop where
  wf : doc'.WF
  settled : doc.Settled → doc'.Settled
  applied : doc.applied ⊆ doc'.applied
  known : doc.known ⊆ doc'.known
  source : doc'.known ⊆ doc.known ∪ other.applied ∨ doc'.known = doc.known ∪ other.known

theorem Exchange.gains (h : doc.Side st other ost) (ho : other.Side ost doc st)
    (hx : Exchange fmt doc st out inn doc' st') (hxo : Exchange fmt other ost inn out other' ost') :
    Gains other doc doc' := by
  rcases hx.cases h ho hxo with ⟨_, rfl, _⟩ | ⟨_, _, _, hrec, _⟩
  · exact ⟨h.wf, id, subset_rfl, subset_rfl, Or.inl Set.subset_union_left⟩
  · exact ⟨hrec.wf, hrec.settled, hrec.applied, hrec.known, hrec.source⟩

omit [LinearOrder A] in
theorem Gains.known_subset (h : Gains other doc doc') : doc'.known ⊆ doc.known ∪ other.known :=
  h.source.elim (fun h => h.trans (Set.union_subset_union_right _ Set.subset_union_left))
    fun h => h.le

omit [LinearOrder A] in
/-- What waits after a half round can be answered after it. -/
theorem Gains.answerable (ho : other.WF) (hg : Gains other doc doc')
    (hgo : Gains doc other other') (hans : doc.Answerable other) (hanso : other.Answerable doc) :
    doc'.Answerable other' := by
  intro c hc d hd
  have hheld : c.hash ∈ doc'.known := Or.inr (mem_hashesOf.mpr hc)
  have hnew : c.hash ∉ doc.applied := fun hmem => hg.wf.queue_new c hc (hg.applied hmem)
  have hof : ∀ {D : Automerge M}, c.hash ∈ D.known → c.hash ∉ D.applied → c ∈ D.queue := by
    intro D hk hn
    exact mem_hashesOf.mp (hk.resolve_left hn)
  have happ : c.hash ∈ other.applied → d ∈ other'.applied := by
    intro hmem
    exact hgo.applied (ho.closed (dep_hash.mpr hd) hmem)
  have hown : c.hash ∈ doc.known → d ∈ doc'.known ∪ other'.applied := by
    intro hk
    rcases hans c (hof hk hnew) d hd with hd' | hd'
    · exact Or.inl (hg.known hd')
    · exact Or.inr (hgo.applied hd')
  rcases hg.source with hsrc | hsrc
  · rcases hsrc hheld with hk | hk
    · exact hown hk
    · exact Or.inr (happ hk)
  · rcases hsrc.le hheld with hk | hk
    · exact hown hk
    · by_cases hk' : c.hash ∈ other.applied
      · exact Or.inr (happ hk')
      · -- a change the other peer holds back came with everything it has received
        rcases hanso c (hof hk hk') d hd with hd' | hd'
        · exact Or.inl (hsrc.ge (Or.inr hd'))
        · exact Or.inl (hg.known (Or.inl hd'))

/-! ## A round -/

theorem Side.round (h : doc.Side st other ost) (ho : other.Side ost doc st)
    (hx : Exchange fmt doc st out inn doc' st')
    (hxo : Exchange fmt other ost inn out other' ost') : doc'.Side st' other' ost' := by
  have hg := hx.gains h ho hxo
  have hgo := hxo.gains ho h hx
  refine ⟨hg.wf, ?_, ?_, ?_, hg.answerable ho.wf hgo h.answerable ho.answerable⟩
  · intro hs hhs x hxs
    rcases hx.cases h ho hxo with ⟨_, _, hth, _⟩ | ⟨_, _, _, _, hth, _⟩
    · exact hgo.applied (h.heads hs (hth ▸ hhs) x hxs)
    · obtain rfl : other.getHeads = hs := by simpa [hth] using hhs
      exact hgo.applied ((mem_getHeads ho.wf).mp hxs).1
  · intro ns hns
    rcases hx.cases h ho hxo with ⟨_, rfl, _, hn, _⟩ | ⟨m, _, _, _, _, hn, _, hnd, hmem⟩
    · exact h.need ns (hn ▸ hns)
    · obtain rfl : m.need = ns := by simpa [hn] using hns
      exact ⟨hnd, fun x hx => hg.applied (hmem x hx)⟩
  · -- an unanswered message is the last thing the other peer heard
    intro hflight
    rcases hx.cases h ho hxo with ⟨rfl, rfl, _, _, hst⟩ | ⟨_, _, _, _, _, _, hf, _⟩
    · rcases hxo.cases ho h hx with ⟨rfl, _, hth, _⟩ | ⟨_, _, _, _, hth, _⟩
      · rw [hth]
        exact h.awaiting (hst rfl ▸ hflight)
      · exact hth
    · rw [hf] at hflight
      cases hflight

variable {doc₁ doc₂ doc₁' doc₂' : Automerge M} {st₁ st₂ st₁' st₂' : SyncState B}
  {msg₁ msg₂ : Option (Message B)}

/-- **A round keeps the invariant**, if somebody speaks. -/
theorem Talk.round (h : Talk doc₁ st₁ doc₂ st₂) (hx₁ : Exchange fmt doc₁ st₁ msg₁ msg₂ doc₁' st₁')
    (hx₂ : Exchange fmt doc₂ st₂ msg₂ msg₁ doc₂' st₂') (hspoke : ¬ (msg₁ = none ∧ msg₂ = none)) :
    Talk doc₁' st₁' doc₂' st₂' := by
  refine ⟨h.side₁.round h.side₂ hx₁ hx₂, h.side₂.round h.side₁ hx₂ hx₁, ?_⟩
  rintro ⟨hf₁, hf₂⟩
  rcases hx₁.cases h.side₁ h.side₂ hx₂ with ⟨hm₂, _⟩ | ⟨_, _, _, _, _, _, hf, _⟩
  · rcases hx₂.cases h.side₂ h.side₁ hx₁ with ⟨hm₁, _⟩ | ⟨_, _, _, _, _, _, hf, _⟩
    · exact hspoke ⟨hm₁, hm₂⟩
    · rw [hf] at hf₂
      cases hf₂
  · rw [hf] at hf₁
    cases hf₁

/-- A silent peer has heard all the other has, or is waiting for an answer. -/
theorem Side.silent (h : doc.Side st other ost) (ho : other.WF)
    (hgen : doc.generateSyncMessage fmt st = some (mid, none)) :
    (st.theirHeads = some doc.getHeads ∧ doc.applied ⊆ other.applied) ∨ st.inFlight = true := by
  obtain ⟨_, _, hashes, _, _, hnothing⟩ := generate_silent h hgen
  simp only [nothingToSend, Bool.and_eq_true, Bool.or_eq_true, decide_eq_true_eq] at hnothing
  rcases hnothing.2 with ⟨hth, _⟩ | hf
  · exact Or.inl ⟨hth, applied_subset_of_getHeads ho h.wf (h.heads _ hth)⟩
  · exact Or.inr hf

/-- **When both are silent the documents agree.** -/
theorem Talk.agree (h : Talk doc₁ st₁ doc₂ st₂) {mid₁ mid₂ : SyncState B}
    (hgen₁ : doc₁.generateSyncMessage fmt st₁ = some (mid₁, none))
    (hgen₂ : doc₂.generateSyncMessage fmt st₂ = some (mid₂, none)) :
    doc₁.applied = doc₂.applied := by
  -- a peer still waiting was heard last, by one that knows of nothing else
  have hwait : ∀ {doc other : Automerge M} {st ost : SyncState B}, doc.Side st other ost →
      other.Side ost doc st → st.inFlight = true → ost.theirHeads = some other.getHeads →
      doc.applied = other.applied := by
    intro doc other st ost hs hso hf hth
    rw [hs.awaiting hf, Option.some.injEq] at hth
    exact (getHeads_eq_iff hs.wf hso.wf).mp hth
  rcases h.side₁.silent h.side₂.wf hgen₁ with ⟨hth₁, hsub₁⟩ | hf₁
  · rcases h.side₂.silent h.side₁.wf hgen₂ with ⟨_, hsub₂⟩ | hf₂
    · exact hsub₁.antisymm hsub₂
    · exact (hwait h.side₂ h.side₁ hf₂ hth₁).symm
  · rcases h.side₂.silent h.side₁.wf hgen₂ with ⟨hth₂, _⟩ | hf₂
    · exact hwait h.side₁ h.side₂ hf₁ hth₂
    · exact absurd ⟨hf₁, hf₂⟩ h.oneInFlight

end Automerge

/-! ## The loop -/

section Loop

variable {doc₁ doc₂ doc₁' doc₂' : Automerge M} {log₁ log₂ : PatchLog A}
  {st₁ st₂ st₁' st₂' : SyncState B}

/-- A round in which nobody speaks is the last. -/
theorem syncLoop_of_silent {mid₁ mid₂ : SyncState B} (rounds : ℕ)
    (hgen₁ : doc₁.generateSyncMessage fmt st₁ = some (mid₁, none))
    (hgen₂ : doc₂.generateSyncMessage fmt st₂ = some (mid₂, none)) :
    syncLoop fmt (rounds + 1) ⟨.closed doc₁ log₁, st₁⟩ ⟨.closed doc₂ log₂, st₂⟩ =
      .returned (.closed doc₁ log₁) (.closed doc₂ log₂) := by
  simp [syncLoop, syncRound, Peer.encode, hgen₁, hgen₂]

theorem syncRound_returned {d₁ d₂ : AutoCommit M}
    (h : syncRound fmt ⟨.closed doc₁ log₁, st₁⟩ ⟨.closed doc₂ log₂, st₂⟩ = .returned d₁ d₂) :
    d₁ = .closed doc₁ log₁ ∧ d₂ = .closed doc₂ log₂ ∧ ∃ mid₁ mid₂,
      doc₁.generateSyncMessage fmt st₁ = some (mid₁, none) ∧
      doc₂.generateSyncMessage fmt st₂ = some (mid₂, none) := by
  simp only [syncRound, Peer.encode, AutoCommit.ensureTransactionClosed_closed,
    Option.bind_eq_bind, Option.bind_some] at h
  rcases hgen₁ : doc₁.generateSyncMessage fmt st₁ with _ | ⟨mid₁, msg₁⟩
  · simp [hgen₁] at h
  rcases hgen₂ : doc₂.generateSyncMessage fmt st₂ with _ | ⟨mid₂, msg₂⟩
  · simp [hgen₁, hgen₂] at h
  simp only [hgen₁, hgen₂, Option.bind_some] at h
  split at h
  · rename_i hnone
    simp only [SyncRun.returned.injEq] at h
    obtain ⟨hm₁, hm₂⟩ := hnone
    rw [Option.isNone_iff_eq_none] at hm₁ hm₂
    exact ⟨h.1.symm, h.2.symm, mid₁, mid₂, by rw [hm₁], by rw [hm₂]⟩
  · split at h <;> cases h

theorem decode_eq_some {p : Peer M B} {msg : Option (Message B)}
    (h : Peer.decode fmt ⟨.closed doc₁ log₁, st₁⟩ msg = some p) :
    ∃ doc log st, p = ⟨.closed doc log, st⟩ ∧ doc₁.Heard fmt st₁ msg doc st := by
  rcases msg with _ | m
  · obtain rfl : _ = p := by simpa [Peer.decode] using h
    exact ⟨doc₁, log₁, st₁, rfl, rfl, rfl⟩
  · simp only [Peer.decode, AutoCommit.ensureTransactionClosed_closed, Option.bind_eq_bind,
      Option.bind_some] at h
    rcases hrecv : doc₁.receiveSyncMessageLogPatches fmt log₁ st₁ m with ⟨⟨doc, log⟩, st⟩ | ⟨e, d⟩ | _
    · have hrecv' := Automerge.receiveSyncMessage_of_logged fmt
        (show _ = Outcome.after none ((doc, log), st) from hrecv)
      simp only [AutoCommit.closed_patchLog, hrecv, Option.some.injEq] at h
      exact ⟨doc, log, st, h.symm, hrecv'⟩
    · simp [hrecv] at h
    · simp [hrecv] at h

/-- A round that goes on: both have spoken, as far as they had to, and heard the other. -/
theorem syncRound_decodes {p q : Peer M B}
    (h : syncRound fmt ⟨.closed doc₁ log₁, st₁⟩ ⟨.closed doc₂ log₂, st₂⟩ = .running p q) :
    ∃ mid₁ msg₁ mid₂ msg₂, doc₁.generateSyncMessage fmt st₁ = some (mid₁, msg₁) ∧
      doc₂.generateSyncMessage fmt st₂ = some (mid₂, msg₂) ∧ ¬ (msg₁ = none ∧ msg₂ = none) ∧
      Peer.decode fmt ⟨.closed doc₁ log₁, mid₁⟩ msg₂ = some p ∧
      Peer.decode fmt ⟨.closed doc₂ log₂, mid₂⟩ msg₁ = some q := by
  simp only [syncRound, Peer.encode, AutoCommit.ensureTransactionClosed_closed,
    Option.bind_eq_bind, Option.bind_some] at h
  rcases hgen₁ : doc₁.generateSyncMessage fmt st₁ with _ | ⟨mid₁, msg₁⟩
  · simp [hgen₁] at h
  rcases hgen₂ : doc₂.generateSyncMessage fmt st₂ with _ | ⟨mid₂, msg₂⟩
  · simp [hgen₁, hgen₂] at h
  simp only [hgen₁, hgen₂, Option.bind_some] at h
  split at h
  · cases h
  · rename_i hspoke
    split at h
    · rename_i q' p' hq hp
      simp only [SyncRun.running.injEq] at h
      obtain ⟨rfl, rfl⟩ := h
      exact ⟨mid₁, msg₁, mid₂, msg₂, rfl, rfl, by simpa [Option.isNone_iff_eq_none] using hspoke,
        hp, hq⟩
    · cases h

theorem syncRound_running {p q : Peer M B}
    (h : syncRound fmt ⟨.closed doc₁ log₁, st₁⟩ ⟨.closed doc₂ log₂, st₂⟩ = .running p q) :
    ∃ msg₁ msg₂ doc₁' log₁' st₁' doc₂' log₂' st₂',
      p = ⟨.closed doc₁' log₁', st₁'⟩ ∧ q = ⟨.closed doc₂' log₂', st₂'⟩ ∧
      Automerge.Exchange fmt doc₁ st₁ msg₁ msg₂ doc₁' st₁' ∧
      Automerge.Exchange fmt doc₂ st₂ msg₂ msg₁ doc₂' st₂' ∧ ¬ (msg₁ = none ∧ msg₂ = none) := by
  obtain ⟨mid₁, msg₁, mid₂, msg₂, hgen₁, hgen₂, hspoke, hp, hq⟩ := syncRound_decodes h
  obtain ⟨doc₁', log₁', st₁', rfl, h₁⟩ := decode_eq_some hp
  obtain ⟨doc₂', log₂', st₂', rfl, h₂⟩ := decode_eq_some hq
  exact ⟨msg₁, msg₂, doc₁', log₁', st₁', doc₂', log₂', st₂', rfl, rfl, ⟨mid₁, hgen₁, h₁⟩,
    ⟨mid₂, hgen₂, h₂⟩, hspoke⟩

/-- **A run that returns ends in agreement**, and no change is lost on the way. -/
theorem syncLoop_returned : ∀ (rounds : ℕ) {doc₁ doc₂ : Automerge M} {log₁ log₂ : PatchLog A}
    {st₁ st₂ : SyncState B} {d₁ d₂ : AutoCommit M}, Automerge.Talk doc₁ st₁ doc₂ st₂ →
    syncLoop fmt rounds ⟨.closed doc₁ log₁, st₁⟩ ⟨.closed doc₂ log₂, st₂⟩ = .returned d₁ d₂ →
    ∃ doc₁' log₁' doc₂' log₂', d₁ = .closed doc₁' log₁' ∧ d₂ = .closed doc₂' log₂' ∧
      doc₁'.WF ∧ doc₂'.WF ∧
      doc₁'.applied = doc₂'.applied ∧ doc₁.applied ⊆ doc₁'.applied ∧
      doc₂.applied ⊆ doc₂'.applied ∧ doc₁'.known ⊆ doc₁.known ∪ doc₂.known ∧
      doc₂'.known ⊆ doc₁.known ∪ doc₂.known
  | 0, _, _, _, _, _, _, _, _, _, h => by cases h
  | rounds + 1, doc₁, doc₂, log₁, log₂, st₁, st₂, d₁, d₂, htalk, h => by
    rw [syncLoop] at h
    rcases hround : syncRound fmt ⟨.closed doc₁ log₁, st₁⟩ ⟨.closed doc₂ log₂, st₂⟩ with
      ⟨p, q⟩ | ⟨e₁, e₂⟩ | _
    · obtain ⟨_, _, doc₁', log₁', st₁', doc₂', log₂', st₂', rfl, rfl, hx₁, hx₂, hspoke⟩ :=
        syncRound_running hround
      simp only [hround] at h
      obtain ⟨f₁, l₁, f₂, l₂, hf₁, hf₂, hwf₁, hwf₂, heq, happ₁, happ₂, hk₁, hk₂⟩ :=
        syncLoop_returned rounds (htalk.round hx₁ hx₂ hspoke) h
      have hg₁ := hx₁.gains htalk.side₁ htalk.side₂ hx₂
      have hg₂ := hx₂.gains htalk.side₂ htalk.side₁ hx₁
      have hk : doc₁'.known ∪ doc₂'.known ⊆ doc₁.known ∪ doc₂.known :=
        Set.union_subset hg₁.known_subset (Set.union_comm _ _ ▸ hg₂.known_subset)
      exact ⟨f₁, l₁, f₂, l₂, hf₁, hf₂, hwf₁, hwf₂, heq, hg₁.applied.trans happ₁, hg₂.applied.trans happ₂,
        hk₁.trans hk, hk₂.trans hk⟩
    · obtain ⟨rfl, rfl, mid₁, mid₂, hgen₁, hgen₂⟩ := syncRound_returned hround
      simp only [hround, SyncRun.returned.injEq] at h
      obtain ⟨rfl, rfl⟩ := h
      exact ⟨doc₁, log₁, doc₂, log₂, rfl, rfl, htalk.side₁.wf, htalk.side₂.wf, htalk.agree hgen₁ hgen₂,
        subset_rfl, subset_rfl, Set.subset_union_left, Set.subset_union_right⟩
    · simp [hround] at h

omit [LinearOrder A] in
/-- Two fresh states say nothing. -/
theorem talk_new (h₁ : doc₁.WF) (h₂ : doc₂.WF) (ha₁ : doc₁.Answerable doc₂)
    (ha₂ : doc₂.Answerable doc₁) : Automerge.Talk doc₁ (.new B) doc₂ (.new B) where
  side₁ := ⟨h₁, fun _ h => (nomatch h), fun _ h => (nomatch h), fun h => (nomatch h), ha₁⟩
  side₂ := ⟨h₂, fun _ h => (nomatch h), fun _ h => (nomatch h), fun h => (nomatch h), ha₂⟩
  oneInFlight h := nomatch h.1

/-! The two peers of `am_sync` are treated alike. -/

def SyncRun.swap : SyncRun M B → SyncRun M B
  | .running p q => .running q p
  | .returned d₁ d₂ => .returned d₂ d₁
  | .failed => .failed

theorem syncRound_swap (p q : Peer M B) : syncRound fmt q p = (syncRound fmt p q).swap := by
  unfold syncRound
  rcases p.encode fmt with _ | ⟨p, msg₁⟩
  · rcases q.encode fmt with _ | ⟨q, msg₂⟩ <;> rfl
  · rcases q.encode fmt with _ | ⟨q, msg₂⟩
    · rfl
    · simp only [and_comm (a := msg₂.isNone = true)]
      split
      · rfl
      · rcases p.decode fmt msg₂ with _ | p
        · rcases q.decode fmt msg₁ with _ | q <;> rfl
        · rcases q.decode fmt msg₁ with _ | q <;> rfl

theorem syncLoop_swap : ∀ (rounds : ℕ) (p q : Peer M B),
    syncLoop fmt rounds q p = (syncLoop fmt rounds p q).swap
  | 0, _, _ => rfl
  | rounds + 1, p, q => by
    rw [syncLoop, syncLoop, syncRound_swap p q]
    rcases syncRound fmt p q with ⟨p', q'⟩ | ⟨d₁, d₂⟩ | _
    · exact syncLoop_swap rounds p' q'
    · rfl
    · rfl

end Loop

end AutomergeR
