import Mathlib.Data.Set.Card
import AutomergeR.SyncRun

/-! # `am_sync` ends

Between documents that hold nothing back to begin with a run stays `Orderly`: what a
peer waits for the other has applied, a state's shared heads are shared indeed, and
what was sent has arrived. Then no message is a reset and no call fails, so a round
either ends the run or brings it on (`Orderly.step`).

The run ends because the received changes only grow, within the union of what both
had received to begin with. As long as the documents differ they grow within four
rounds, whatever the filters hide: a peer that is behind names a hash it has not
received and the other sends it (`ends_of_asked`). Once the documents agree the peers
fall silent within two rounds (`Exchange.hushed`).
-/

namespace AutomergeR

variable {H A P : Type} [LinearOrder H] [LinearOrder A] [ChangeHash H A P]
  {M : OpSetModel H A P} {fmt : ChunkFormat H A P} {B : BloomScheme H}

namespace Automerge

variable {doc other doc' other' : Automerge M} {st ost st' ost' mid : SyncState B}
  {out inn : Option (Message B)} {msg : Message B}

/-! ## What else an orderly peer knows -/

/-- What holds of a peer on top of `Side` when nothing was held back at the start. -/
structure Clean (doc : Automerge M) (st : SyncState B) (other : Automerge M) : Prop where
  settled : doc.Settled
  held : doc.held ⊆ other.applied
  shared : ∀ x ∈ st.sharedHeads, x ∈ doc.applied ∧ x ∈ other.applied
  sent : ∀ x ∈ st.sentHashes, x ∈ other.known
  haves : ∀ hvs, st.theirHave = some hvs → ∀ hv ∈ hvs, ∀ x ∈ hv.lastSync, x ∈ doc.applied

omit [LinearOrder A] in
theorem Clean.mustReset (h : Clean doc st other) : doc.mustReset st = false :=
  mustReset_eq_false h.haves

omit [LinearOrder A] in
theorem WF.held_not_applied (h : doc.WF) {x : H} (hx : x ∈ doc.held) : x ∉ doc.applied := by
  obtain ⟨c, hc, rfl⟩ := hx
  exact h.queue_new c hc

omit [LinearOrder A] [LinearOrder H] in
/-- What a peer has received from the other, or holds back, the other has applied. -/
theorem Clean.applied_of_known (hc : Clean doc st other) (hco : Clean other ost doc)
    {x : H} (hx : x ∈ doc.known ∪ other.known) (hxn : x ∉ doc.applied) : x ∈ other.applied := by
  rcases hx with (hx | hx) | (hx | hx)
  · exact absurd hx hxn
  · exact hc.held hx
  · exact hx
  · exact absurd (hco.held hx) hxn

theorem generate_mid (h : doc.Side st other ost)
    (hgen : doc.generateSyncMessage fmt st = some (mid, out)) :
    mid.theirHave = st.theirHave ∧ mid.sharedHeads = st.sharedHeads := by
  rcases out with _ | m
  · obtain ⟨rfl, _⟩ := generate_silent h hgen
    exact ⟨rfl, rfl⟩
  · obtain ⟨_, hmsg⟩ := generate_says h hgen
    exact ⟨hmsg.theirHave, hmsg.sharedHeads⟩

omit [LinearOrder A] in
/-- A head that receiving has brought is not one the document had applied before. -/
theorem new_head_not_applied (h : doc.WF) (h' : doc'.WF) (hsub : doc.applied ⊆ doc'.applied)
    {x : H} (hx : x ∈ doc'.getHeads) (hxn : x ∉ doc.getHeads) : x ∉ doc.applied := by
  intro hmem
  rw [mem_getHeads h'] at hx
  rw [mem_getHeads h, not_and] at hxn
  push Not at hxn
  obtain ⟨c, hc, hxc⟩ := hxn hmem
  have hc' : c.hash ∈ doc'.applied := hsub (ChangeGraph.hash_mem_hashes.mpr hc)
  exact hx.2 c (ChangeGraph.hash_mem_hashes.mp hc') hxc

omit [LinearOrder A] in
/-- The heads noted as shared are shared. -/
theorem noteMessage_shared {hashes : List H} (h : doc.WF)
    (hrec : other.Receives doc doc' hashes) (hc : Clean doc st other) (hco : Clean other ost doc) (ho : other.WF)
    (hheads : msg.heads = other.getHeads) (hmid : mid.sharedHeads = st.sharedHeads) :
    ∀ x ∈ (doc'.noteMessage doc.getHeads mid msg).sharedHeads,
      x ∈ doc'.applied ∧ x ∈ other.applied := by
  have hhead : ∀ x ∈ msg.heads, x ∈ other.applied := fun x hx =>
    ((mem_getHeads ho).mp (hheads ▸ hx)).1
  have hold : ∀ x ∈ mid.sharedHeads, x ∈ doc'.applied ∧ x ∈ other.applied := fun x hx =>
    ⟨hrec.applied (hc.shared x (hmid ▸ hx)).1, (hc.shared x (hmid ▸ hx)).2⟩
  have hadv : ∀ x ∈ advanceHeads doc.getHeads doc'.getHeads mid.sharedHeads,
      x ∈ doc'.applied ∧ x ∈ other.applied := by
    intro x hx
    simp only [advanceHeads, Finset.mem_sort, List.mem_toFinset, List.mem_append,
      List.mem_filter, decide_eq_true_eq] at hx
    rcases hx with ⟨hx, hxn⟩ | ⟨hx, _⟩
    · have hxa := ((mem_getHeads hrec.wf).mp hx).1
      have hknown : x ∈ doc.known ∪ other.known := by
        have hx' : x ∈ doc'.known := Or.inl hxa
        rcases hrec.source with hs | hs
        · exact (hs hx').imp id Or.inl
        · exact hs.le hx'
      exact ⟨hxa, hc.applied_of_known hco hknown
        (new_head_not_applied h hrec.wf hrec.applied hx hxn)⟩
    · exact hold x hx
  intro x hx
  simp only [noteMessage] at hx
  split at hx
  · rename_i hall
    have hall' : ∀ y ∈ msg.heads, doc'.hasChange y = true := by
      rw [← List.length_filter_eq_length_iff]
      simpa using hall
    exact ⟨hasChange_iff.mp (hall' x hx), hhead x hx⟩
  · simp only [Finset.mem_sort, List.mem_toFinset, List.mem_append, List.mem_filter] at hx
    rcases hx with hx | ⟨hx, hxk⟩
    · split at hx
      · exact hold x hx
      · exact hadv x hx
    · exact ⟨hasChange_iff.mp hxk, hhead x hx⟩

omit [LinearOrder A] in
theorem noteMessage_sentHashes (beforeHeads : List H) :
    (doc.noteMessage beforeHeads st msg).sentHashes ⊆ st.sentHashes := by
  simp only [noteMessage]
  split
  · exact Finset.empty_subset _
  · exact Finset.sdiff_subset

/-- A half round keeps a peer orderly. -/
theorem Clean.round (h : doc.Side st other ost) (ho : other.Side ost doc st)
    (hc : Clean doc st other) (hco : Clean other ost doc)
    (hx : Exchange fmt doc st out inn doc' st')
    (hxo : Exchange fmt other ost inn out other' ost') : Clean doc' st' other' := by
  have hg := hx.gains h ho hxo
  have hgo := hxo.gains ho h hx
  obtain ⟨mid, hgen, hin⟩ := hx.spec h ho hxo
  obtain ⟨hhave, hshared⟩ := generate_mid h hgen
  -- what went out has arrived
  have hsent : ∀ x ∈ mid.sentHashes, x ∈ other'.known := by
    intro x hxs
    rcases out with _ | m
    · obtain ⟨rfl, _⟩ := generate_silent h hgen
      exact hgo.known (hc.sent x hxs)
    · obtain ⟨_, _, ⟨hm, _⟩ | ⟨m', mid', hashes, hm, hgen', hmsg, hrec, _⟩⟩ := hxo.spec ho h hx
      · cases hm
      · obtain rfl : m = m' := by simpa using hm
        obtain rfl : mid = mid' := by simpa [hgen] using hgen'
        rcases hmsg.sentHashes x hxs with hxs | hxs
        · exact hgo.known (hc.sent x hxs)
        · exact hrec.gained x hxs
  have hheld : doc'.held ⊆ other'.applied := by
    intro x hxh
    refine hgo.applied (hc.applied_of_known hco (hg.known_subset (Or.inr hxh)) fun hmem => ?_)
    exact hg.wf.held_not_applied hxh (hg.applied hmem)
  rcases hin with ⟨_, rfl, rfl⟩ | ⟨m, omid, hashes, _, _, hmsg, hrec, rfl⟩
  · refine ⟨hg.settled hc.settled, hheld, fun x hxs => ?_, hsent, fun hvs hhvs => ?_⟩
    · obtain ⟨h1, h2⟩ := hc.shared x (hshared ▸ hxs)
      exact ⟨h1, hgo.applied h2⟩
    · exact hc.haves hvs (hhave ▸ hhvs)
  · refine ⟨hg.settled hc.settled, hheld, fun x hxs => ?_, fun x hxs => ?_, fun hvs hhvs => ?_⟩
    · obtain ⟨h1, h2⟩ := noteMessage_shared h.wf hrec hc hco ho.wf hmsg.heads hshared x hxs
      exact ⟨h1, hgo.applied h2⟩
    · exact hsent x (noteMessage_sentHashes _ hxs)
    · obtain rfl : m.haves = hvs := by simpa [noteMessage] using hhvs
      exact fun hv hhv x hxl => hg.applied (hco.shared x (hmsg.haves hv hhv x hxl)).2

end Automerge

open Automerge

variable {doc₁ doc₂ doc₁' doc₂' : Automerge M} {st₁ st₂ st₁' st₂' : SyncState B}
  {msg₁ msg₂ : Option (Message B)}

/-- The invariant of a run between documents that hold nothing back and do not clash. -/
structure Orderly (doc₁ : Automerge M) (st₁ : SyncState B) (doc₂ : Automerge M)
    (st₂ : SyncState B) : Prop where
  talk : Talk doc₁ st₁ doc₂ st₂
  clean₁ : Clean doc₁ st₁ doc₂
  clean₂ : Clean doc₂ st₂ doc₁
  noClash : NoClash {c : Change H A P | c.hash ∈ doc₁.known ∪ doc₂.known}

omit [LinearOrder A] in
theorem Orderly.swap (h : Orderly doc₁ st₁ doc₂ st₂) : Orderly doc₂ st₂ doc₁ st₁ :=
  ⟨⟨h.talk.side₂, h.talk.side₁, fun hf => h.talk.oneInFlight hf.symm⟩, h.clean₂, h.clean₁,
    Set.union_comm doc₁.known doc₂.known ▸ h.noClash⟩

/-! ## Receiving more -/

/-- Both have received at least what they had, and nothing new to both. -/
structure Later (doc₁ doc₂ doc₁' doc₂' : Automerge M) : Prop where
  known₁ : doc₁.known ⊆ doc₁'.known
  known₂ : doc₂.known ⊆ doc₂'.known
  union : doc₁'.known ∪ doc₂'.known = doc₁.known ∪ doc₂.known

omit [LinearOrder A] [LinearOrder H] in
theorem Later.trans {doc₁'' doc₂'' : Automerge M} (h : Later doc₁ doc₂ doc₁' doc₂')
    (h' : Later doc₁' doc₂' doc₁'' doc₂'') : Later doc₁ doc₂ doc₁'' doc₂'' :=
  ⟨h.known₁.trans h'.known₁, h.known₂.trans h'.known₂, h'.union.trans h.union⟩

omit [LinearOrder A] [LinearOrder H] in
theorem Later.swap (h : Later doc₁ doc₂ doc₁' doc₂') : Later doc₂ doc₁ doc₂' doc₁' :=
  ⟨h.known₂, h.known₁, by rw [Set.union_comm, h.union, Set.union_comm]⟩

/-- What is still to be received. -/
noncomputable def missing (doc₁ doc₂ : Automerge M) : ℕ :=
  ((doc₁.known ∪ doc₂.known) \ doc₁.known).ncard + ((doc₁.known ∪ doc₂.known) \ doc₂.known).ncard

omit [LinearOrder A] [LinearOrder H] in
theorem known_finite (doc : Automerge M) : doc.known.Finite := by
  refine doc.applied_finite.union ((List.finite_toSet (doc.queue.map Change.hash)).subset ?_)
  rintro _ ⟨c, hc, rfl⟩
  exact List.mem_map_of_mem hc

omit [LinearOrder A] [LinearOrder H] in
/-- Every change received brings the end nearer. -/
theorem missing_lt (h : Later doc₁ doc₂ doc₁' doc₂')
    (hne : doc₁'.known ≠ doc₁.known ∨ doc₂'.known ≠ doc₂.known) :
    missing doc₁' doc₂' < missing doc₁ doc₂ := by
  have hfin : (doc₁.known ∪ doc₂.known).Finite := (known_finite doc₁).union (known_finite doc₂)
  have hle : ∀ {S T : Set H}, S ⊆ T →
      ((doc₁.known ∪ doc₂.known) \ T).ncard ≤ ((doc₁.known ∪ doc₂.known) \ S).ncard :=
    fun hST => Set.ncard_le_ncard (Set.sdiff_subset_sdiff_right hST) hfin.sdiff
  have hlt : ∀ {S T : Set H}, S ⊆ T → T ⊆ doc₁.known ∪ doc₂.known → T ≠ S →
      ((doc₁.known ∪ doc₂.known) \ T).ncard < ((doc₁.known ∪ doc₂.known) \ S).ncard := by
    intro S T hST hTU hTS
    obtain ⟨x, hxT, hxS⟩ : ∃ x ∈ T, x ∉ S := by
      by_contra hall
      push Not at hall
      exact hTS (Set.Subset.antisymm hall hST)
    refine Set.ncard_lt_ncard ⟨Set.sdiff_subset_sdiff_right hST, fun hsub => ?_⟩ hfin.sdiff
    exact (hsub ⟨hTU hxT, hxS⟩).2 hxT
  have hU₁ : doc₁'.known ⊆ doc₁.known ∪ doc₂.known := h.union ▸ Set.subset_union_left
  have hU₂ : doc₂'.known ⊆ doc₁.known ∪ doc₂.known := h.union ▸ Set.subset_union_right
  rw [missing, missing, h.union]
  rcases hne with hne | hne
  · exact Nat.add_lt_add_of_lt_of_le (hlt h.known₁ hU₁ hne) (hle h.known₂)
  · exact Nat.add_lt_add_of_le_of_lt (hle h.known₁) (hlt h.known₂ hU₂ hne)

theorem Orderly.round (h : Orderly doc₁ st₁ doc₂ st₂)
    (hx₁ : Exchange fmt doc₁ st₁ msg₁ msg₂ doc₁' st₁')
    (hx₂ : Exchange fmt doc₂ st₂ msg₂ msg₁ doc₂' st₂') (hspoke : ¬ (msg₁ = none ∧ msg₂ = none)) :
    Orderly doc₁' st₁' doc₂' st₂' ∧ Later doc₁ doc₂ doc₁' doc₂' := by
  have hg₁ := hx₁.gains h.talk.side₁ h.talk.side₂ hx₂
  have hg₂ := hx₂.gains h.talk.side₂ h.talk.side₁ hx₁
  have hunion : doc₁'.known ∪ doc₂'.known = doc₁.known ∪ doc₂.known := by
    refine Set.Subset.antisymm (Set.union_subset hg₁.known_subset ?_)
      (Set.union_subset_union hg₁.known hg₂.known)
    exact Set.union_comm doc₂.known doc₁.known ▸ hg₂.known_subset
  exact ⟨⟨h.talk.round hx₁ hx₂ hspoke,
    h.clean₁.round h.talk.side₁ h.talk.side₂ h.clean₂ hx₁ hx₂,
    h.clean₂.round h.talk.side₂ h.talk.side₁ h.clean₁ hx₂ hx₁, hunion ▸ h.noClash⟩,
    hg₁.known, hg₂.known, hunion⟩

/-! ## No call fails -/

/-- The rounds from here come to an end, the patch logs left aside. -/
inductive Ends (fmt : ChunkFormat H A P) : Automerge M → SyncState B → Automerge M →
    SyncState B → Prop
  | silent {doc₁ doc₂ : Automerge M} {st₁ st₂ mid₁ mid₂ : SyncState B}
      (hgen₁ : doc₁.generateSyncMessage fmt st₁ = some (mid₁, none))
      (hgen₂ : doc₂.generateSyncMessage fmt st₂ = some (mid₂, none)) : Ends fmt doc₁ st₁ doc₂ st₂
  | round {doc₁ doc₂ doc₁' doc₂' : Automerge M} {st₁ st₂ st₁' st₂' : SyncState B}
      {msg₁ msg₂ : Option (Message B)} (hx₁ : Exchange fmt doc₁ st₁ msg₁ msg₂ doc₁' st₁')
      (hx₂ : Exchange fmt doc₂ st₂ msg₂ msg₁ doc₂' st₂') (hspoke : ¬ (msg₁ = none ∧ msg₂ = none))
      (h : Ends fmt doc₁' st₁' doc₂' st₂') : Ends fmt doc₁ st₁ doc₂ st₂

theorem Ends.swap (h : Ends fmt doc₁ st₁ doc₂ st₂) : Ends fmt doc₂ st₂ doc₁ st₁ := by
  induction h with
  | silent hgen₁ hgen₂ => exact .silent hgen₂ hgen₁
  | round hx₁ hx₂ hspoke _ ih => exact .round hx₂ hx₁ (fun h => hspoke h.symm) ih

theorem exists_generate (fmt : ChunkFormat H A P) {doc other : Automerge M}
    {st ost : SyncState B} (h : doc.Side st other ost) : ∃ mid out, doc.generateSyncMessage fmt st = some (mid, out) := by
  obtain ⟨ch, hs, v, hch, _⟩ := changesToSend_spec fmt h.wf h.need
  unfold generateSyncMessage
  split
  · exact ⟨_, _, rfl⟩
  · rw [hch]
    simp only
    split <;> exact ⟨_, _, rfl⟩

/-- A message that was said can be heard. -/
theorem exists_heard {doc other : Automerge M} {st ost omid : SyncState B}
    {inn : Option (Message B)} (mid : SyncState B) (h : doc.WF) (ho : other.Side ost doc st)
    (hclash : NoClash {c : Change H A P | c.hash ∈ doc.known ∪ other.known})
    (hgen : other.generateSyncMessage fmt ost = some (omid, inn)) :
    ∃ doc' st', doc.Heard fmt mid inn doc' st' := by
  rcases inn with _ | msg
  · exact ⟨doc, mid, rfl, rfl⟩
  · obtain ⟨hashes, hmsg⟩ := generate_says ho hgen
    by_cases hnil : msg.changes = []
    · exact ⟨_, _, receiveSyncMessage_nil fmt hnil⟩
    · obtain ⟨doc', hdoc⟩ := ((receives_of_carries h ho.wf hmsg.carries).2 hnil).2 hclash
      have hrecv : doc.receiveSyncMessage fmt mid msg = _ := receiveSyncMessage_changes fmt hnil
      rw [hdoc] at hrecv
      exact ⟨doc', _, hrecv⟩

/-- **No call fails**: a round ends the run or brings it on. -/
theorem Orderly.step (fmt : ChunkFormat H A P) (h : Orderly doc₁ st₁ doc₂ st₂) :
    Ends fmt doc₁ st₁ doc₂ st₂ ∨ ∃ msg₁ msg₂ doc₁' st₁' doc₂' st₂',
      Exchange fmt doc₁ st₁ msg₁ msg₂ doc₁' st₁' ∧ Exchange fmt doc₂ st₂ msg₂ msg₁ doc₂' st₂' ∧
      ¬ (msg₁ = none ∧ msg₂ = none) ∧ Orderly doc₁' st₁' doc₂' st₂' ∧
      Later doc₁ doc₂ doc₁' doc₂' ∧
      (Ends fmt doc₁' st₁' doc₂' st₂' → Ends fmt doc₁ st₁ doc₂ st₂) := by
  obtain ⟨mid₁, msg₁, hgen₁⟩ := exists_generate fmt h.talk.side₁
  obtain ⟨mid₂, msg₂, hgen₂⟩ := exists_generate fmt h.talk.side₂
  by_cases hspoke : msg₁ = none ∧ msg₂ = none
  · obtain ⟨rfl, rfl⟩ := hspoke
    exact Or.inl (.silent hgen₁ hgen₂)
  · obtain ⟨doc₁', st₁', hin₁⟩ := exists_heard mid₁ h.talk.side₁.wf h.talk.side₂ h.noClash
      hgen₂
    obtain ⟨doc₂', st₂', hin₂⟩ := exists_heard mid₂ h.talk.side₂.wf h.talk.side₁
      (Set.union_comm doc₁.known doc₂.known ▸ h.noClash) hgen₁
    have hx₁ : Exchange fmt doc₁ st₁ msg₁ msg₂ doc₁' st₁' := ⟨mid₁, hgen₁, hin₁⟩
    have hx₂ : Exchange fmt doc₂ st₂ msg₂ msg₁ doc₂' st₂' := ⟨mid₂, hgen₂, hin₂⟩
    obtain ⟨hord, hlater⟩ := h.round hx₁ hx₂ hspoke
    exact Or.inr ⟨msg₁, msg₂, doc₁', st₁', doc₂', st₂', hx₁, hx₂, hspoke, hord, hlater,
      .round hx₁ hx₂ hspoke⟩

/-! ## While the documents differ -/

/-- Every orderly state in which more has been received comes to its end. -/
def GrowthEnds (fmt : ChunkFormat H A P) (B : BloomScheme H) (doc₁ doc₂ : Automerge M) : Prop :=
  ∀ ⦃doc₁' : Automerge M⦄ ⦃st₁' : SyncState B⦄ ⦃doc₂' : Automerge M⦄ ⦃st₂' : SyncState B⦄,
    Orderly doc₁' st₁' doc₂' st₂' → Later doc₁ doc₂ doc₁' doc₂' →
    doc₁'.known ≠ doc₁.known ∨ doc₂'.known ≠ doc₂.known → Ends fmt doc₁' st₁' doc₂' st₂'

theorem GrowthEnds.later (h : GrowthEnds fmt B doc₁ doc₂) (hl : Later doc₁ doc₂ doc₁' doc₂')
    (h₁ : doc₁'.known = doc₁.known) (h₂ : doc₂'.known = doc₂.known) :
    GrowthEnds fmt B doc₁' doc₂' :=
  fun _ _ _ _ hord hlater hne => h hord (hl.trans hlater) (by rwa [h₁, h₂] at hne)

omit [LinearOrder A] in
/-- A settled document that receives nothing applies nothing. -/
theorem applied_of_known_eq {doc doc' : Automerge M} (h : doc.WF) (hs : doc.Settled)
    (h' : doc'.WF) (hs' : doc'.Settled) (hk : doc'.known = doc.known) :
    doc'.applied = doc.applied := by
  rw [applied_eq_core h.graph hs, applied_eq_core h'.graph hs', hk]

/-- A peer with something to say says it. -/
theorem exists_message {doc other : Automerge M} {st ost mid : SyncState B}
    {out : Option (Message B)} (h : doc.Side st other ost)
    (hgen : doc.generateSyncMessage fmt st = some (mid, out))
    (hloud : ∀ changes hashes version, doc.changesToSend fmt st =
      some (some (changes, hashes, version)) → doc.nothingToSend st hashes = false) :
    ∃ msg, out = some msg := by
  rcases out with _ | msg
  · obtain ⟨_, ch, hs, v, hch, hnothing⟩ := generate_silent h hgen
    rw [hloud ch hs v hch] at hnothing
    cases hnothing
  · exact ⟨msg, rfl⟩

omit [LinearOrder A] [ChangeHash H A P] in
/-- A peer that is not waiting for an answer and has heard of other heads than its own
has something to say. -/
theorem loud_of_heads {doc : Automerge M} {st : SyncState B} {hs : List H}
    (hth : st.theirHeads = some hs) (hne : hs ≠ doc.getHeads) (hf : st.inFlight = false)
    (hashes : List H) : doc.nothingToSend st hashes = false := by
  simp [nothingToSend, hth, hne, hf]

/-- Asked for a hash the other has not received, a peer sends it. -/
theorem ends_of_asked (h : Orderly doc₁ st₁ doc₂ st₂) (hih : GrowthEnds fmt B doc₁ doc₂)
    {hvs : List (Have B)} {ns : List H} {x : H} (hhave : st₁.theirHave = some hvs)
    (hneed : st₁.theirNeed = some ns) (hx : x ∈ ns) (hxn : x ∉ doc₂.known)
    (hf : st₁.inFlight = false) : Ends fmt doc₁ st₁ doc₂ st₂ := by
  rcases h.step fmt with hends | ⟨_, _, doc₁', st₁', doc₂', st₂', hx₁, hx₂, _, hord,
    hlater, hback⟩
  · exact hends
  have hasked : ∀ changes hashes version, doc₁.changesToSend fmt st₁ =
      some (some (changes, hashes, version)) → x ∈ hashes := by
    intro ch hs v hch
    obtain ⟨_, _, _, hch', _, hall⟩ := changesToSend_spec fmt h.talk.side₁.wf h.talk.side₁.need
    obtain ⟨rfl, rfl, rfl⟩ : _ = ch ∧ _ = hs ∧ _ = v := by simpa [hch'] using hch
    exact hall hvs ns hhave hneed x hx fun hsent => hxn (h.clean₁.sent x hsent)
  obtain ⟨mid₁, hgen₁, _⟩ := hx₁.spec h.talk.side₁ h.talk.side₂ hx₂
  obtain ⟨m, rfl⟩ := exists_message h.talk.side₁ hgen₁ fun ch hs v hch => by
    have hne : hs.isEmpty = false := by
      rw [List.isEmpty_eq_false_iff]
      exact List.ne_nil_of_mem (hasked ch hs v hch)
    simp [nothingToSend, hf, hne]
  obtain ⟨_, _, ⟨hm, _⟩ | ⟨m', _, hashes, _, _, hmsg, hrec, _⟩⟩ :=
    hx₂.spec h.talk.side₂ h.talk.side₁ hx₁
  · cases hm
  · obtain ⟨ch, v, hch, _⟩ := hmsg.proper h.clean₁.mustReset
    have hgained := hrec.gained x (hasked ch hashes v hch)
    exact hback (hih hord hlater (Or.inr fun heq => hxn (heq ▸ hgained)))

/-- A peer that is behind, told of the other's heads and free to speak, asks. -/
theorem ends_of_behind (h : Orderly doc₁ st₁ doc₂ st₂) (hih : GrowthEnds fmt B doc₁ doc₂)
    (hlack : ¬ doc₁.applied ⊆ doc₂.applied) (hth : st₂.theirHeads = some doc₁.getHeads)
    (hf : st₂.inFlight = false) : Ends fmt doc₁ st₁ doc₂ st₂ := by
  rcases h.step fmt with hends | ⟨_, _, doc₁', st₁', doc₂', st₂', hx₁, hx₂, _, hord,
    hlater, hback⟩
  · exact hends
  by_cases hsame : doc₁'.known = doc₁.known ∧ doc₂'.known = doc₂.known
  · have hne : doc₁.getHeads ≠ doc₂.getHeads := fun heq =>
      hlack ((getHeads_eq_iff h.talk.side₁.wf h.talk.side₂.wf).mp heq).le
    obtain ⟨mid₂, hgen₂, _⟩ := hx₂.spec h.talk.side₂ h.talk.side₁ hx₁
    obtain ⟨m, rfl⟩ := exists_message h.talk.side₂ hgen₂ fun _ hs _ _ =>
      loud_of_heads hth hne hf hs
    obtain ⟨_, _, ⟨hm, _⟩ | ⟨m', _, _, hm, _, hmsg, _, rfl⟩⟩ :=
      hx₁.spec h.talk.side₁ h.talk.side₂ hx₂
    · cases hm
    · obtain rfl : m = m' := by simpa using hm
      obtain ⟨_, _, _, _, _, rfl⟩ := hmsg.proper h.clean₂.mustReset
      obtain ⟨x, hx⟩ := exists_need h.talk.side₂.wf h.clean₂.settled h.talk.side₁.wf hlack
      have hneed : x ∈ doc₂.ourNeed st₂ := by simpa [ourNeed, hth] using hx
      have hxn : x ∉ doc₂'.known := hsame.2 ▸ (mem_getMissingDeps.mp hx).2
      exact hback (ends_of_asked hord (hih.later hlater hsame.1 hsame.2) rfl rfl hneed hxn rfl)
  · exact hback (hih hord hlater (not_and_or.mp hsame))

/-- A peer that is ahead and speaks lets the other know that it is behind. -/
theorem ends_of_ahead_spoke (h : Orderly doc₁ st₁ doc₂ st₂) (hih : GrowthEnds fmt B doc₁ doc₂)
    (hlack : ¬ doc₁.applied ⊆ doc₂.applied) {m : Message B}
    (hx₁ : Exchange fmt doc₁ st₁ (some m) msg₂ doc₁' st₁')
    (hx₂ : Exchange fmt doc₂ st₂ msg₂ (some m) doc₂' st₂') : Ends fmt doc₁ st₁ doc₂ st₂ := by
  have hspoke : ¬ (some m = none ∧ msg₂ = none) := fun hno => by cases hno.1
  obtain ⟨hord, hlater⟩ := h.round hx₁ hx₂ hspoke
  refine .round hx₁ hx₂ hspoke ?_
  by_cases hsame : doc₁'.known = doc₁.known ∧ doc₂'.known = doc₂.known
  · have happ₁ := applied_of_known_eq h.talk.side₁.wf h.clean₁.settled hord.talk.side₁.wf
      hord.clean₁.settled hsame.1
    have happ₂ := applied_of_known_eq h.talk.side₂.wf h.clean₂.settled hord.talk.side₂.wf
      hord.clean₂.settled hsame.2
    have hheads := (getHeads_eq_iff hord.talk.side₁.wf h.talk.side₁.wf).mpr happ₁
    rcases hx₂.cases h.talk.side₂ h.talk.side₁ hx₁ with ⟨hm, _⟩ | ⟨_, _, _, _, hth, _, hf, _⟩
    · cases hm
    · exact ends_of_behind hord (hih.later hlater hsame.1 hsame.2) (by rwa [happ₁, happ₂])
        (by rw [hth, hheads]) hf
  · exact hih hord hlater (not_and_or.mp hsame)

theorem ends_of_ahead (h : Orderly doc₁ st₁ doc₂ st₂) (hih : GrowthEnds fmt B doc₁ doc₂)
    (hlack : ¬ doc₁.applied ⊆ doc₂.applied) : Ends fmt doc₁ st₁ doc₂ st₂ := by
  rcases h.step fmt with hends | ⟨msg₁, msg₂, doc₁', st₁', doc₂', st₂', hx₁, hx₂, hspoke,
    hord, hlater, hback⟩
  · exact hends
  rcases msg₁ with _ | m
  · by_cases hsame : doc₁'.known = doc₁.known ∧ doc₂'.known = doc₂.known
    · -- only the other spoke: now this one has heard heads it can answer
      refine hback ?_
      have happ₁ := applied_of_known_eq h.talk.side₁.wf h.clean₁.settled hord.talk.side₁.wf
        hord.clean₁.settled hsame.1
      have happ₂ := applied_of_known_eq h.talk.side₂.wf h.clean₂.settled hord.talk.side₂.wf
        hord.clean₂.settled hsame.2
      have hlack' : ¬ doc₁'.applied ⊆ doc₂'.applied := by rwa [happ₁, happ₂]
      have hne : doc₂.getHeads ≠ doc₁'.getHeads := fun heq => by
        have := (getHeads_eq_iff h.talk.side₂.wf hord.talk.side₁.wf).mp heq
        exact hlack' (by rw [happ₂, this])
      have hih' := hih.later hlater hsame.1 hsame.2
      rcases hx₁.cases h.talk.side₁ h.talk.side₂ hx₂ with ⟨rfl, _⟩ | ⟨_, _, _, _, hth, _, hf, _⟩
      · exact absurd ⟨rfl, rfl⟩ hspoke
      · rcases hord.step fmt with hends | ⟨_, _, _, _, _, _, hx₁', hx₂', _⟩
        · exact hends
        · obtain ⟨mid, hgen, _⟩ := hx₁'.spec hord.talk.side₁ hord.talk.side₂ hx₂'
          obtain ⟨m, rfl⟩ := exists_message hord.talk.side₁ hgen fun _ hs _ _ =>
            loud_of_heads hth hne hf hs
          exact ends_of_ahead_spoke hord hih' hlack' hx₁' hx₂'
    · exact hback (hih hord hlater (not_and_or.mp hsame))
  · exact ends_of_ahead_spoke h hih hlack hx₁ hx₂

theorem GrowthEnds.swap (h : GrowthEnds fmt B doc₁ doc₂) : GrowthEnds fmt B doc₂ doc₁ :=
  fun _ _ _ _ hord hlater hne => (h hord.swap hlater.swap hne.symm).swap

/-! ## When the documents agree -/

namespace Automerge

variable {doc other doc' other' : Automerge M} {st ost st' ost' : SyncState B}
  {out inn : Option (Message B)}

/-- Whatever there is to send, there is nothing to say. -/
def Hushed (fmt : ChunkFormat H A P) (doc : Automerge M) (st : SyncState B) : Prop :=
  ∀ changes hashes version, doc.changesToSend fmt st = some (some (changes, hashes, version)) →
    doc.nothingToSend st hashes = true

theorem generate_of_hushed (h : doc.Side st other ost) (hreset : doc.mustReset st = false)
    (hh : Hushed fmt doc st) : doc.generateSyncMessage fmt st = some (st, none) := by
  obtain ⟨ch, hs, v, hch, _⟩ := changesToSend_spec fmt h.wf h.need
  rw [generateSyncMessage, if_neg (by simp [hreset]), hch]
  simp only [hh ch hs v hch, if_true]

omit [LinearOrder A] in
/-- Between peers that agree nothing is asked for. -/
theorem ourNeed_of_agree (h : doc.Side st other ost)
    (heq : doc.applied = other.applied) : doc.ourNeed st = [] := by
  rw [List.eq_nil_iff_forall_not_mem]
  intro x hx
  have hxn := (mem_getMissingDeps.mp hx).2
  exact hxn (Or.inl (heq ▸ (ourNeed_answerable h).2 x hx))

omit [LinearOrder A] [LinearOrder H] in
theorem known_of_agree (hc : Clean doc st other) (heq : doc.applied = other.applied) : doc.known = doc.applied := by
  refine Set.union_eq_left.mpr fun x hx => ?_
  exact heq ▸ hc.held hx

omit [LinearOrder A] in
theorem applied_eq_empty (h : doc.WF) (hheads : doc.getHeads = []) : doc.applied = ∅ := by
  refine Set.eq_empty_of_subset_empty ?_
  rw [Causal.closed_eq_past_heads (dep_wellFounded (A := A) (P := P)) doc.applied_finite h.closed,
    ← getHeads_eq_heads h, hheads]
  rintro x ⟨y, hy, _⟩
  exact (List.not_mem_nil hy).elim

/-- A peer that has heard from one it agrees with has nothing left to send. -/
theorem nothing_to_send_after (h' : doc'.WF) (ho : other.Side ost doc st)
    (heq : other.applied = doc.applied)
    (heq' : doc'.applied = other.applied) {changes : List (List UInt8)} {version : MessageVersion}
    (hth : st'.theirHeads = some other.getHeads)
    (hhave : st'.theirHave = some (other.message ost changes version).haves)
    (hneed : st'.theirNeed = some (other.message ost changes version).need)
    {changes' : List (List UInt8)} {hashes : List H} {version' : MessageVersion}
    (hch : doc'.changesToSend fmt st' = some (some (changes', hashes, version'))) :
    hashes = [] := by
  have hnil := ourNeed_of_agree ho heq
  have hhave' : st'.theirHave = some [other.makeBloomFilter B ost.sharedHeads] := by
    rw [hhave]
    simp [message, ourHave, hnil]
  have hneed' : st'.theirNeed = some [] := by
    rw [hneed]
    simp [message, hnil]
  have hsend := getHashesToSend_same (B := B) h' ho.wf heq' ost.sharedHeads
  unfold changesToSend at hch
  simp only [hhave', hneed', hsend, List.filter_nil] at hch
  split at hch
  · rename_i hdoc
    have hempty : doc'.applied = ∅ :=
      heq'.trans (applied_eq_empty ho.wf (by simpa [hth] using hdoc.1))
    simp only [Option.some.injEq, Prod.mk.injEq] at hch
    rw [← hch.2.1, List.eq_nil_iff_forall_not_mem]
    intro x hx
    have hx' : x ∈ doc'.applied := ((h'.graph.mem_getHashes h'.ownChain).mp hx).1
    rw [hempty] at hx'
    exact hx'
  · split at hch
    · cases hch
    · cases hch
    · split at hch
      · simp only [Option.some.injEq, Prod.mk.injEq] at hch
        exact hch.2.1.symm
      · simp only [Option.some.injEq, Prod.mk.injEq] at hch
        exact hch.2.1.symm

/-- **After one round between peers that agree** each has nothing more to say. -/
theorem Exchange.hushed (h : doc.Side st other ost) (ho : other.Side ost doc st)
    (hc : Clean doc st other) (hco : Clean other ost doc) (heq : doc.applied = other.applied)
    (hx : Exchange fmt doc st out inn doc' st') (hxo : Exchange fmt other ost inn out other' ost')
    (hspoke : ¬ (out = none ∧ inn = none)) : Hushed fmt doc' st' := by
  have hg := hx.gains h ho hxo
  have happ : doc'.applied = doc.applied := by
    refine Set.Subset.antisymm (fun x hx => ?_) hg.applied
    have hk := hg.known_subset (Or.inl hx)
    rw [known_of_agree hc heq, known_of_agree hco heq.symm, heq, Set.union_self] at hk
    exact heq ▸ hk
  have hheads : doc'.getHeads = doc.getHeads := (getHeads_eq_iff hg.wf h.wf).mpr happ
  have hoheads : other.getHeads = doc.getHeads := (getHeads_eq_iff ho.wf h.wf).mpr heq.symm
  obtain ⟨mid, hgen, hin⟩ := hx.spec h ho hxo
  -- speaking or silent, the peer has said its heads
  have hmid : mid.lastSentHeads = doc.getHeads ∧ mid.haveResponded = true ∧
      (out ≠ none → mid.inFlight = true) := by
    rcases out with _ | m
    · obtain ⟨rfl, _, hs, _, _, hnothing⟩ := generate_silent h hgen
      simp only [nothingToSend, Bool.and_eq_true, decide_eq_true_eq] at hnothing
      exact ⟨hnothing.1.1, hnothing.1.2, fun hno => absurd rfl hno⟩
    · obtain ⟨_, hmsg⟩ := generate_says h hgen
      obtain ⟨_, _, _, _, rfl, _⟩ := hmsg.proper hc.mustReset
      exact ⟨rfl, rfl, fun _ => rfl⟩
  intro changes' hashes' version' hch
  rcases hin with ⟨rfl, rfl, rfl⟩ | ⟨m, omid, hashes, _, _, hmsg, _, rfl⟩
  · have hflight := hmid.2.2 fun hout => hspoke ⟨hout, rfl⟩
    simp [nothingToSend, hmid.1, hmid.2.1, hflight]
  · obtain ⟨ch, v, _, _, _, rfl⟩ := hmsg.proper hco.mustReset
    have hnil := nothing_to_send_after hg.wf ho heq.symm (happ.trans heq) rfl rfl rfl hch
    have hlast : (doc'.noteMessage doc.getHeads mid (other.message ost ch v)).lastSentHeads =
        doc'.getHeads := by
      have hmh : (other.message ost ch v).heads = doc'.getHeads := hoheads.trans hheads.symm
      simp only [noteMessage]
      split
      · rename_i hempty
        rw [Bool.and_eq_true, List.isEmpty_iff, hmh] at hempty
        exact hempty.2.symm
      · split
        · exact hmh
        · rw [hmid.1, hheads]
    have hth : (doc'.noteMessage doc.getHeads mid (other.message ost ch v)).theirHeads =
        some doc'.getHeads := congrArg some (hoheads.trans hheads.symm)
    have hresp : (doc'.noteMessage doc.getHeads mid (other.message ost ch v)).haveResponded =
        true := hmid.2.1
    simp [nothingToSend, hlast, hth, hresp, hnil]

end Automerge

theorem ends_of_agree (h : Orderly doc₁ st₁ doc₂ st₂) (heq : doc₁.applied = doc₂.applied) :
    Ends fmt doc₁ st₁ doc₂ st₂ := by
  rcases h.step fmt with hends | ⟨msg₁, msg₂, doc₁', st₁', doc₂', st₂', hx₁, hx₂, hspoke, hord,
    _, hback⟩
  · exact hends
  have hh₁ := hx₁.hushed h.talk.side₁ h.talk.side₂ h.clean₁ h.clean₂ heq hx₂ hspoke
  have hh₂ := hx₂.hushed h.talk.side₂ h.talk.side₁ h.clean₂ h.clean₁ heq.symm hx₁
    fun hno => hspoke hno.symm
  exact hback (.silent
    (generate_of_hushed hord.talk.side₁ hord.clean₁.mustReset hh₁)
    (generate_of_hushed hord.talk.side₂ hord.clean₂.mustReset hh₂))

/-! ## Every orderly run ends -/

/-- **The loop ends** from every orderly state. -/
theorem Orderly.ends (fmt : ChunkFormat H A P) (h : Orderly doc₁ st₁ doc₂ st₂) :
    Ends fmt doc₁ st₁ doc₂ st₂ := by
  induction hn : missing doc₁ doc₂ using Nat.strong_induction_on
    generalizing doc₁ st₁ doc₂ st₂ with
  | _ n ih =>
    subst hn
    have hih : GrowthEnds fmt B doc₁ doc₂ := fun _ _ _ _ hord hlater hne =>
      ih _ (missing_lt hlater hne) hord rfl
    by_cases hsub₁ : doc₁.applied ⊆ doc₂.applied
    · by_cases hsub₂ : doc₂.applied ⊆ doc₁.applied
      · exact ends_of_agree h (hsub₁.antisymm hsub₂)
      · exact (ends_of_ahead h.swap hih.swap hsub₂).swap
    · exact ends_of_ahead h hih hsub₁

end AutomergeR
