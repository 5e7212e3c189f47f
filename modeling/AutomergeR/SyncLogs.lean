import AutomergeR.SyncConvergence

/-! # Patch logs in a run of `am_sync`

A run that comes to its end does so with the patch logs as well if each follows: the actors that
only the log has come behind all others, or the document is ahead of the other and receives no
change at all (`LogFollows`, `Ends.returns`).
-/

namespace AutomergeR

open Automerge

variable {H A P : Type} [LinearOrder H] [LinearOrder A] [ChangeHash H A P]
  {M : OpSetModel H A P} {fmt : ChunkFormat H A P} {B : BloomScheme H}

/-! ## A document that is ahead -/

namespace Automerge

variable {doc other doc' other' : Automerge M} {st ost st' ost' mid omid : SyncState B}
  {out inn : Option (Message B)} {msg : Message B}

/-- `doc` has all that `other` has, and `other` has been told so. -/
structure Ahead (doc other : Automerge M) (ost : SyncState B) : Prop where
  applied : other.applied ⊆ doc.applied
  nonempty : doc.getHeads ≠ []
  heads : ∀ hs, ost.theirHeads = some hs → hs ≠ []
  told : ∀ hvs ns, ost.theirHave = some hvs → ost.theirNeed = some ns →
    ns = [] ∧ ∃ lastSync, hvs = [doc.makeBloomFilter B lastSync]

/-- Told so, the other one has no changes to send. -/
theorem Ahead.changes_nil (h : Ahead doc other ost) (hwf : doc.WF) (ho : other.WF)
    (hco : Clean other ost doc) {changes : List (List UInt8)} {hashes : List H}
    {version : MessageVersion}
    (hch : other.changesToSend fmt ost = some (some (changes, hashes, version))) :
    changes = [] := by
  unfold changesToSend at hch
  rcases hhave : ost.theirHave with _ | hvs
  · simp only [hhave, Option.some.injEq, Prod.mk.injEq] at hch
    exact hch.1.symm
  rcases hneed : ost.theirNeed with _ | ns
  · simp only [hhave, hneed, Option.some.injEq, Prod.mk.injEq] at hch
    exact hch.1.symm
  obtain ⟨rfl, lastSync, rfl⟩ := h.told hvs ns hhave hneed
  have hnone : other.getHashesToSend [doc.makeBloomFilter B lastSync] [] = [] :=
    getHashesToSend_covered ho hwf h.applied fun x hx _ =>
      hco.haves _ hhave _ List.mem_cons_self x hx
  have hheads : ¬ (ost.theirHeads = some [] ∧ ost.supportsV2Messages = true) := fun hno =>
    h.heads _ hno.1 rfl
  obtain ⟨cs, hget, hmap, -⟩ := getChangesByHashes_spec ho [] List.nodup_nil
    fun x hx => absurd hx List.not_mem_nil
  obtain rfl : cs = [] := List.map_eq_nil_iff.mp hmap
  simp only [hhave, hneed, if_neg hheads, hnone, List.filter_nil, hget] at hch
  split at hch <;> simp only [Option.some.injEq, Prod.mk.injEq] at hch <;> exact hch.1.symm

/-- A document that is ahead stays as it is. -/
theorem Ahead.heard (h : Ahead doc other ost) (hs : doc.Side st other ost)
    (hso : other.Side ost doc st) (hco : Clean other ost doc)
    (hogen : other.generateSyncMessage fmt ost = some (omid, inn)) :
    ∀ msg, inn = some msg → msg.changes = [] := by
  rintro msg rfl
  obtain ⟨hashes, hmsg⟩ := generate_says hso hogen
  obtain ⟨changes, version, hch, -, -, rfl⟩ := hmsg.proper hco.mustReset
  exact h.changes_nil hs.wf hso.wf hco hch

/-- A document that is ahead stays ahead. -/
theorem Ahead.round (h : Ahead doc other ost) (hs : doc.Side st other ost)
    (hso : other.Side ost doc st) (hc : Clean doc st other) (hco : Clean other ost doc)
    (hx : Exchange fmt doc st out inn doc' st') (hxo : Exchange fmt other ost inn out other' ost') :
    doc' = doc ∧ Ahead doc other' ost' := by
  have hgo := hxo.gains hso hs hx
  obtain ⟨mid, hgen, hin⟩ := id hx
  have hdoc : doc' = doc := by
    obtain ⟨omid, hogen, -⟩ := hxo
    rcases inn with _ | msg
    · exact hin.1
    · have hrecv : doc.receiveSyncMessage fmt mid msg = .ok (doc', st') := hin
      rw [receiveSyncMessage_nil fmt (h.heard hs hso hco hogen msg rfl)] at hrecv
      cases hrecv
      rfl
  have happ : other'.applied ⊆ doc.applied := by
    intro x hx
    by_contra hxn
    refine hxn (h.applied (hc.applied_of_known hco ?_ hxn))
    exact Set.union_comm other.known doc.known ▸ hgo.known_subset (Or.inl hx)
  obtain ⟨omid, hogen, ⟨rfl, -, rfl⟩ | ⟨msg, _, _, rfl, -, hmsg, -, rfl⟩⟩ := hxo.spec hso hs hx
  · obtain ⟨hth, hhave, hneed⟩ := generate_told fmt hogen
    exact ⟨hdoc, happ, h.nonempty, hth ▸ h.heads, hhave ▸ hneed ▸ h.told⟩
  · obtain ⟨_, _, -, -, -, rfl⟩ := hmsg.proper hc.mustReset
    refine ⟨hdoc, happ, h.nonempty, ?_, ?_⟩
    · rintro hs ⟨⟩
      exact h.nonempty
    · rintro hvs ns ⟨⟩ ⟨⟩
      have hneed : doc.ourNeed st = [] := by
        rw [List.eq_nil_iff_forall_not_mem]
        intro x hx
        exact (mem_getMissingDeps.mp hx).2 (Or.inl (h.applied ((ourNeed_answerable hs).2 x hx)))
      exact ⟨hneed, st.sharedHeads, by simp [message, ourHave, hneed]⟩

/-! ## A log that follows -/

/-- The patch log comes along whatever may still arrive. -/
def LogFollows (doc : Automerge M) (log : PatchLog A) (other : Automerge M) (ost : SyncState B) :
    Prop :=
  log.Follows doc.actors {a | ∃ c : Change H A P, c.hash ∈ doc.known ∪ other.known ∧ c.actor = a} ∨
    Ahead doc other ost

theorem logFollows_of_subset {log : PatchLog A} (h : log.actors ⊆ doc.actors) :
    LogFollows doc log other ost :=
  Or.inl (PatchLog.follows_of_subset h)

theorem decode_of_logged {log log' : PatchLog A}
    (h : doc.receiveSyncMessageLogPatches fmt log mid msg = .ok ((doc', log'), st')) :
    Peer.decode fmt ⟨.closed doc log, mid⟩ (some msg) = some ⟨.closed doc' log', st'⟩ := by
  simp only [Peer.decode, AutoCommit.ensureTransactionClosed_closed, Option.bind_eq_bind,
    Option.bind_some, AutoCommit.closed_patchLog, h]

/-- What a document hears it hears with a log that follows, and the log follows on. -/
theorem LogFollows.round {log : PatchLog A} (h : LogFollows doc log other ost)
    (hs : doc.Side st other ost) (hso : other.Side ost doc st) (hc : Clean doc st other)
    (hco : Clean other ost doc) (hgen : doc.generateSyncMessage fmt st = some (mid, out))
    (hin : doc.Heard fmt mid inn doc' st') (hxo : Exchange fmt other ost inn out other' ost') :
    ∃ log', Peer.decode fmt ⟨.closed doc log, mid⟩ inn = some ⟨.closed doc' log', st'⟩ ∧
      LogFollows doc' log' other' ost' := by
  have hx : Exchange fmt doc st out inn doc' st' := ⟨mid, hgen, hin⟩
  have hg := hx.gains hs hso hxo
  have hgo := hxo.gains hso hs hx
  have hall : doc'.known ∪ other'.known = doc.known ∪ other.known := by
    refine Set.Subset.antisymm (Set.union_subset hg.known_subset ?_)
      (Set.union_subset_union hg.known hgo.known)
    exact Set.union_comm other.known doc.known ▸ hgo.known_subset
  have hactors : ∀ a ∈ doc'.actors,
      ∃ c : Change H A P, c.hash ∈ doc.known ∪ other.known ∧ c.actor = a := by
    intro a ha
    obtain ⟨c, hcm, rfl⟩ := (mem_actors hg.wf.graph).mp ha
    exact ⟨c, hg.known_subset (Or.inl (ChangeGraph.hash_mem_hashes.mpr hcm)), rfl⟩
  rcases h with hlog | hahead
  · rcases inn with _ | msg
    · obtain ⟨rfl, rfl⟩ := hin
      exact ⟨log, rfl, Or.inl (hall ▸ hlog)⟩
    · obtain ⟨hmono, log', hlogged, hsub⟩ := receiveSyncMessageLogPatches_of_follows fmt hs.wf.graph
        hlog hactors hin
      exact ⟨log', decode_of_logged hlogged, Or.inl (hall ▸ hlog.mono hsub hmono)⟩
  · obtain ⟨rfl, hahead'⟩ := hahead.round hs hso hc hco hx hxo
    refine ⟨log, ?_, Or.inr hahead'⟩
    rcases inn with _ | msg
    · obtain ⟨-, rfl⟩ := hin
      rfl
    · obtain ⟨omid, hogen, -⟩ := hxo
      have hnil := hahead.heard hs hso hco hogen msg rfl
      have hrecv : doc'.receiveSyncMessage fmt mid msg = .ok (doc', st') := hin
      rw [receiveSyncMessage_nil fmt hnil] at hrecv
      cases hrecv
      refine decode_of_logged ?_
      rw [receiveSyncMessageLogPatches, hnil]
      rfl

end Automerge

variable {doc₁ doc₂ : Automerge M} {st₁ st₂ : SyncState B} {log₁ log₂ : PatchLog A}

theorem syncRound_of_decode {mid₁ mid₂ : SyncState B} {msg₁ msg₂ : Option (Message B)}
    {p q : Peer M B} (hgen₁ : doc₁.generateSyncMessage fmt st₁ = some (mid₁, msg₁))
    (hgen₂ : doc₂.generateSyncMessage fmt st₂ = some (mid₂, msg₂))
    (hspoke : ¬ (msg₁ = none ∧ msg₂ = none))
    (hp : Peer.decode fmt ⟨.closed doc₁ log₁, mid₁⟩ msg₂ = some p)
    (hq : Peer.decode fmt ⟨.closed doc₂ log₂, mid₂⟩ msg₁ = some q) :
    syncRound fmt ⟨.closed doc₁ log₁, st₁⟩ ⟨.closed doc₂ log₂, st₂⟩ = .running p q := by
  simp only [syncRound, Peer.encode, AutoCommit.ensureTransactionClosed_closed,
    Option.bind_eq_bind, Option.bind_some, hgen₁, hgen₂, Option.isNone_iff_eq_none,
    if_neg hspoke, AutoCommit.closed_patchLog, hp, hq]

/-- **A run that ends returns** with patch logs that follow. -/
theorem Ends.returns (h : Ends fmt doc₁ st₁ doc₂ st₂) (hord : Orderly doc₁ st₁ doc₂ st₂)
    (hlog₁ : LogFollows doc₁ log₁ doc₂ st₂) (hlog₂ : LogFollows doc₂ log₂ doc₁ st₁) :
    ∃ rounds d₁ d₂,
      syncLoop fmt rounds ⟨.closed doc₁ log₁, st₁⟩ ⟨.closed doc₂ log₂, st₂⟩ = .returned d₁ d₂ := by
  induction h generalizing log₁ log₂ with
  | silent hgen₁ hgen₂ => exact ⟨1, _, _, syncLoop_of_silent 0 hgen₁ hgen₂⟩
  | round hx₁ hx₂ hspoke _ ih =>
    obtain ⟨hord', -⟩ := hord.round hx₁ hx₂ hspoke
    obtain ⟨mid₁, hgen₁, hin₁⟩ := id hx₁
    obtain ⟨mid₂, hgen₂, hin₂⟩ := id hx₂
    obtain ⟨log₁', hdec₁, hlog₁'⟩ := hlog₁.round hord.talk.side₁ hord.talk.side₂ hord.clean₁
      hord.clean₂ hgen₁ hin₁ hx₂
    obtain ⟨log₂', hdec₂, hlog₂'⟩ := hlog₂.round hord.talk.side₂ hord.talk.side₁ hord.clean₂
      hord.clean₁ hgen₂ hin₂ hx₁
    obtain ⟨rounds, d₁, d₂, hr⟩ := ih hord' hlog₁' hlog₂'
    exact ⟨rounds + 1, d₁, d₂, by
      rw [syncLoop, syncRound_of_decode hgen₁ hgen₂ hspoke hdec₁ hdec₂]
      exact hr⟩

end AutomergeR
