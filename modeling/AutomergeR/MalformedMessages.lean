import AutomergeR.MalformedChunks
import AutomergeR.Sync

/-! # Malformed messages

`am_sync_decode` on bytes from the network. A message whose header does not decode is
turned away before anything happens. The changes of one that does go through the same
load as those of `am_apply_changes`, after the sync state has been touched
(`amSyncDecode_iff`).
-/

namespace AutomergeR

variable {H A P : Type} [LinearOrder H] [LinearOrder A] [ChangeHash H A P]
  {M : OpSetModel H A P} {fmt : ChunkFormat H A P} {B : BloomScheme H}

/-! ## Changes that are refused -/

namespace Automerge

variable {doc doc' : Automerge M} {changes : List (Change H A P)}

/-- The first change the document does not know takes another one's actor and sequence
number. -/
def FirstNewClashes (doc : Automerge M) (changes : List (Change H A P)) : Prop :=
  ∃ known c rest, changes = known ++ c :: rest ∧ (∀ b ∈ known, b.hash ∈ doc.known) ∧
    c.hash ∉ doc.known ∧ BatchApply.duplicateSeq [] doc c = true

omit [LinearOrder A] in
theorem nil_hasChange {x : H} : BatchApply.hasChange ([] : BatchApply H A P) doc x = true ↔
    x ∈ doc.known := by
  rw [batch_hasChange_iff, hashesOf_nil, Set.union_empty]
  rfl

theorem stageChanges_clash (rest : List (Change H A P)) {c : Change H A P}
    (hc : c.hash ∉ doc.known) (hdup : BatchApply.duplicateSeq [] doc c = true) :
    ∀ known : List (Change H A P), (∀ b ∈ known, b.hash ∈ doc.known) →
      doc.stageChanges [] (known ++ c :: rest) =
        some (doc, [], some (.duplicateSeqNumber c.seq c.actor))
  | [], _ => by
    rw [List.nil_append, stageChanges, if_neg (nil_hasChange.not.mpr hc), if_pos hdup]
  | b :: known, h => by
    rw [List.cons_append, stageChanges, if_pos (nil_hasChange.mpr (h b List.mem_cons_self))]
    exact stageChanges_clash rest hc hdup known fun b' hb' => h b' (List.mem_cons_of_mem _ hb')

/-- A first loop that stops with nothing collected has met nothing new but the clash. -/
theorem firstNewClashes_of_stageChanges (hg : doc.changeGraph.WF) {e : AutomergeError H A} :
    ∀ changes : List (Change H A P),
      doc.stageChanges [] changes = some (doc, [], some e) → doc.FirstNewClashes changes
  | [], h => by cases h
  | c :: changes, h => by
    rw [stageChanges] at h
    split at h
    · rename_i hknown
      obtain ⟨known, b, rest, rfl, hall, hb⟩ := firstNewClashes_of_stageChanges hg changes h
      refine ⟨c :: known, b, rest, rfl, ?_, hb⟩
      rintro b' (_ | ⟨_, hb'⟩)
      · exact nil_hasChange.mp hknown
      · exact hall b' hb'
    · rename_i hnew
      split at h
      · rename_i hdup
        exact ⟨[], c, changes, rfl, by simp, fun hmem => hnew (nil_hasChange.mpr hmem), hdup⟩
      · -- a change that is taken up stays in the batch or in the queue
        split at h
        · simp only [Option.bind_eq_bind, Option.bind_eq_some_iff] at h
          obtain ⟨chap₁, hpush, h⟩ := h
          rw [push_eq_some hpush] at h
          obtain ⟨_, _, _, hstage, -⟩ := stageChanges_spec changes doc [c] hg
          have hsame := Option.some.inj (hstage.symm.trans h)
          exact absurd (congrArg (fun r => r.2.1) hsame) (by simp)
        · obtain ⟨waiting, _, _, hstage, -⟩ :=
            stageChanges_spec changes (doc.withQueue (doc.queue ++ [c])) [] hg
          have hsame := Option.some.inj (hstage.symm.trans h)
          have hlen := congrArg (fun r => r.1.queue.length) hsame
          simp at hlen

/-- A call that fails leaves the document as it was only if nothing new comes before the
clash. -/
theorem applyChanges_error_unchanged (hM : ∀ s, M.applyChanges s [] = s)
    (hg : doc.changeGraph.WF) {log log' : PatchLog A} {e : AutomergeError H A}
    (h : doc.applyChangesLogPatches log changes = .error e (doc', log')) :
    (doc' = doc ↔ doc.FirstNewClashes changes) ∧
      (doc' = doc → log' = ⟨log.actors ∪ doc.actors⟩) := by
  obtain ⟨staged, chap, hcollect, himport, hlog⟩ := applyChangesLogPatches_eq.mp
    (show doc.applyChangesLogPatches log changes = .after (some e) (doc', log') from h)
  obtain ⟨waiting, added, err, hstage, -, -, hnew, -⟩ := stageChanges_spec changes doc [] hg
  rw [collectChanges, hstage] at hcollect
  rcases err with _ | e'
  · obtain ⟨p, -, hp⟩ := Option.map_eq_some_iff.mp hcollect
    cases hp
  cases hcollect
  have hnone : doc' = doc → waiting = [] ∧ added = [] := by
    rintro rfl
    obtain ⟨-, hq, -, happ⟩ := importBatch_known (by exact hg) himport
    have hq' : doc'.queue = doc'.queue ++ waiting := hq
    have happ' : doc'.applied = doc'.applied ∪ hashesOf added := happ
    refine ⟨List.self_eq_append_right.mp hq', List.eq_nil_iff_forall_not_mem.mpr fun c hc => ?_⟩
    refine hnew c hc ?_
    rw [happ']
    exact Or.inr (mem_hashesOf.mpr hc)
  refine ⟨⟨fun hdoc => ?_, ?_⟩, fun hdoc => ?_⟩
  · obtain ⟨rfl, rfl⟩ := hnone hdoc
    rw [List.append_nil, withQueue_self, List.nil_append] at hstage
    exact firstNewClashes_of_stageChanges hg changes hstage
  · rintro ⟨known, c, rest, rfl, hall, hc, hdup⟩
    have hsame := Option.some.inj ((stageChanges_clash rest hc hdup known hall).symm.trans hstage)
    have hstaged := congrArg Prod.fst hsame
    have hchap := congrArg (fun r => r.2.1) hsame
    dsimp only at hstaged hchap
    rw [← hstaged, ← hchap] at himport
    simpa [importBatch, hM] using himport.symm
  · obtain ⟨rfl, rfl⟩ := hnone hdoc
    have hactors : (doc.withQueue (doc.queue ++ [])).insertNewActors ([] ++ []) = doc.actors :=
      Finset.union_empty _
    rw [hactors] at hlog
    exact (PatchLog.migrateActors_eq_some.mp hlog).2

end Automerge

/-! ## The call from R -/

/-- What a call to `am_sync_decode` comes to: the document and the sync state it leaves,
with or without an error. -/
inductive DecodeResult {H A P : Type} (M : OpSetModel H A P) (B : BloomScheme H) where
  | returned (p : Peer M B)
  | failed (p : Peer M B)
  | panic

namespace Peer

variable (fmt) in
/-- `am_sync_decode`; `decode` is `Message::decode`. -/
def amSyncDecode (decode : List UInt8 → Option (Message B)) (p : Peer M B) (data : List UInt8) :
    DecodeResult M B :=
  match decode data with
  | none => .failed p
  | some msg =>
    match p.doc.ensureTransactionClosed with
    | none => .panic
    | some doc =>
      match doc.receiveSyncMessageLogPatches fmt p.doc.patchLog p.sync msg with
      | .ok ((doc, log), sync) => .returned ⟨.closed doc log, sync⟩
      | .error _ ((doc, log), sync) => .failed ⟨.closed doc log, sync⟩
      | .panic => .panic

variable (fmt) in
/-- The same document, uncommitted edits counting as one more change, and the same sync
state; what would be said next is the same, and the patch log goes along with the same
tables of actors. -/
structure Unchanged (p p' : Peer M B) : Prop where
  doc : p'.doc.ensureTransactionClosed = p.doc.ensureTransactionClosed
  sync : p'.sync = p.sync
  encode : (p'.encode fmt).map Prod.snd = (p.encode fmt).map Prod.snd
  log : ∀ doc, p.doc.ensureTransactionClosed = some doc → ∀ others, doc.actors ⊆ others →
    (p'.doc.patchLog.Fits others ↔ p.doc.patchLog.Fits others)

theorem encode_congr {p p' : Peer M B}
    (hdoc : p'.doc.ensureTransactionClosed = p.doc.ensureTransactionClosed)
    (hsync : p'.sync = p.sync) :
    (p'.encode fmt).map Prod.snd = (p.encode fmt).map Prod.snd := by
  unfold encode
  rw [hdoc, hsync]
  rcases p.doc.ensureTransactionClosed with _ | doc
  · rfl
  · simp only [Option.bind_eq_bind, Option.bind_some]
    rcases doc.generateSyncMessage fmt p.sync with _ | ⟨st, msg⟩ <;> rfl

variable (fmt) in
/-- Refusing the changes of the message leaves everything as it was: the sync state has
no message in flight and the message announces no other capabilities, and the document
is empty or meets the clash before it meets anything new. -/
def RefusesCalmly (doc : Automerge M) (st : SyncState B) (msg : Message B) : Prop :=
  st.inFlight = false ∧ msg.supportedCapabilities.or st.theirCapabilities = st.theirCapabilities ∧
    (doc.isEmpty = true ∨
      doc.FirstNewClashes (fmt.loadChanges doc.changeGraph msg.changes.flatten []).changes)

variable (fmt) in
/-- The changes of the message are a sequence of well-formed chunks that is not refused, or
they are refused without a trace. -/
def Sound (doc : Automerge M) (st : SyncState B) (msg : Message B) : Prop :=
  (¬ doc.Refuses fmt msg.changes.flatten ∧ ∃ cs, fmt.Chunks msg.changes.flatten cs) ∨
    (doc.Refuses fmt msg.changes.flatten ∧ RefusesCalmly fmt doc st msg)

variable {doc doc' : Automerge M} {st st' : SyncState B} {msg : Message B} {log log' : PatchLog A}

theorem receive_of_changes (hne : msg.changes ≠ []) :
    doc.receiveSyncMessageLogPatches fmt log st msg =
      match doc.loadIncrementalLogPatches fmt log msg.changes.flatten with
      | .ok (doc', log') => .ok ((doc', log'), doc'.noteMessage doc.getHeads st msg)
      | .error e applied => .error e (applied, { st with
          inFlight := false
          theirCapabilities := msg.supportedCapabilities.or st.theirCapabilities })
      | .panic => .panic := by
  have hnonempty : msg.changes.isEmpty = false := by simpa using hne
  unfold Automerge.receiveSyncMessageLogPatches
  rw [hnonempty]
  refine (if_neg Bool.false_ne_true).trans ?_
  rcases doc.loadIncrementalLogPatches fmt log msg.changes.flatten with ⟨_, _⟩ | _ | _ <;> rfl

/-- What a failed load leaves of the document, and of its log. -/
theorem load_error_unchanged (hM : ∀ s, M.applyChanges s [] = s) (hg : doc.changeGraph.WF)
    {data : List UInt8} {e : AutomergeError H A}
    (h : doc.loadIncrementalLogPatches fmt log data = .error e (doc', log')) :
    (doc' = doc ↔ doc.isEmpty = true ∨
        doc.FirstNewClashes (fmt.loadChanges doc.changeGraph data []).changes) ∧
      (doc' = doc → ∀ others, doc.actors ⊆ others → (log'.Fits others ↔ log.Fits others)) := by
  rw [Automerge.loadIncrementalLogPatches] at h
  cases hempty : doc.isEmpty with
  | true =>
    rw [if_pos hempty] at h
    rcases hwith : Automerge.loadWithOptions fmt M doc.actor data with _ | e' | d <;>
      rw [hwith] at h
    · cases h
    · cases h
      exact ⟨iff_of_true rfl (Or.inl rfl), fun _ _ _ => Iff.rfl⟩
    · cases h
  | false =>
    have happ : doc.applyChangesLogPatches log
        (fmt.loadChanges doc.changeGraph data []).changes = .error e (doc', log') := by
      rw [hempty, if_neg Bool.false_ne_true] at h
      rw [← h]
      rcases fmt.loadChanges doc.changeGraph data [] with _ | _ <;> rfl
    obtain ⟨hiff, hlog⟩ := Automerge.applyChanges_error_unchanged hM hg happ
    refine ⟨by simpa using hiff, fun hdoc others hsub => ?_⟩
    rw [hlog hdoc]
    refine ⟨fun hfit a ha => hfit a (Finset.mem_union_left _ ha), fun hfit a ha hna => ?_⟩
    exact hfit a ((Finset.mem_union.mp ha).resolve_right fun ha => hna (hsub ha)) hna

omit [LinearOrder H] in
/-- What the error does to the sync state. -/
theorem state_unchanged {caps : Option (List Capability)} :
    ({ st with inFlight := false, theirCapabilities := caps.or st.theirCapabilities } :
      SyncState B) = st ↔
      st.inFlight = false ∧ caps.or st.theirCapabilities = st.theirCapabilities := by
  constructor
  · intro hst
    exact ⟨congrArg SyncState.inFlight hst.symm, congrArg SyncState.theirCapabilities hst⟩
  · rintro ⟨hin, hcaps⟩
    obtain ⟨sharedHeads, lastSentHeads, theirHeads, theirNeed, theirHave, sentHashes, inFlight,
      haveResponded, theirCapabilities⟩ := st
    cases hin
    dsimp only at hcaps ⊢
    rw [hcaps]

theorem sound_iff_of_ok (hg : doc.changeGraph.WF)
    (h : doc.loadIncremental fmt msg.changes.flatten = .after none doc') :
    Sound fmt doc st msg ↔ ∃ cs, fmt.Chunks msg.changes.flatten cs := by
  obtain ⟨herr, -⟩ := Automerge.loadIncremental_refuses hg h
  have hno : ¬ doc.Refuses fmt msg.changes.flatten := fun hrefuses => herr.mpr hrefuses rfl
  exact ⟨fun hsound => (hsound.resolve_right fun hyes => hno hyes.1).2, fun hcs => Or.inl ⟨hno, hcs⟩⟩

theorem sound_iff_of_error {e : AutomergeError H A} (hg : doc.changeGraph.WF)
    (h : doc.loadIncremental fmt msg.changes.flatten = .after (some e) doc') :
    Sound fmt doc st msg ↔ RefusesCalmly fmt doc st msg := by
  obtain ⟨herr, -⟩ := Automerge.loadIncremental_refuses hg h
  have hyes : doc.Refuses fmt msg.changes.flatten := herr.mp (Option.some_ne_none e)
  exact ⟨fun hsound => (hsound.resolve_left fun hno => hno.1 hyes).2, fun hcalm => Or.inr ⟨hyes, hcalm⟩⟩

variable (fmt) in
/-- A message that is refused leaves the peer as it was, and of one that is not every change is
applied or held back. -/
def DecodesWhole (decode : List UInt8 → Option (Message B)) (p : Peer M B) (data : List UInt8) :
    Prop :=
  (∀ p', p.amSyncDecode fmt decode data = .failed p' → p.Unchanged fmt p') ∧
    ∀ p', p.amSyncDecode fmt decode data = .returned p' →
      ∃ msg cs, decode data = some msg ∧ fmt.Chunks msg.changes.flatten cs ∧
        hashesOf cs ⊆ p'.doc.doc.known

theorem decodesWhole_iff_of_ne_panic (hM : ∀ s, M.applyChanges s [] = s)
    (decode : List UInt8 → Option (Message B)) (p : Peer M B) (hp : p.doc.doc.changeGraph.WF)
    (data : List UInt8) (hpanic : p.amSyncDecode fmt decode data ≠ .panic) :
    p.DecodesWhole fmt decode data ↔
      ∀ msg doc, decode data = some msg → msg.changes ≠ [] →
        p.doc.ensureTransactionClosed = some doc → Sound fmt doc p.sync msg := by
  unfold DecodesWhole
  unfold amSyncDecode at hpanic ⊢
  rcases hdecode : decode data with _ | msg
  · refine iff_of_true ⟨fun p' h => ?_, fun p' h => (by cases h)⟩ (fun msg doc h => (by cases h))
    cases h
    exact ⟨rfl, rfl, rfl, fun _ _ _ _ => Iff.rfl⟩
  rw [hdecode] at hpanic
  rcases hclosed : p.doc.ensureTransactionClosed with _ | doc
  · rw [hclosed] at hpanic
    exact absurd rfl hpanic
  rw [hclosed] at hpanic
  have hg := AutoCommit.closed_wf hp hclosed
  by_cases hne : msg.changes = []
  · have hreceive : doc.receiveSyncMessageLogPatches fmt p.doc.patchLog p.sync msg =
        .ok ((doc, p.doc.patchLog), doc.noteMessage doc.getHeads p.sync msg) := by
      unfold Automerge.receiveSyncMessageLogPatches
      rw [hne]
      rfl
    dsimp only
    rw [hreceive]
    refine iff_of_true ⟨fun p' h => (by cases h), fun p' h => ?_⟩ ?_
    · refine ⟨msg, [], rfl, ?_, by simp [hashesOf_nil]⟩
      rw [hne]
      exact .nil
    · intro msg' doc' h hne'
      cases h
      exact absurd hne hne'
  have hsound : (∀ msg' doc', some msg = some msg' → msg'.changes ≠ [] →
      some doc = some doc' → Sound fmt doc' p.sync msg') ↔ Sound fmt doc p.sync msg := by
    constructor
    · exact fun h => h msg doc rfl hne rfl
    · intro h msg' doc' hm _ hd
      cases hm
      cases hd
      exact h
  rw [hsound]
  dsimp only at hpanic ⊢
  rw [receive_of_changes hne] at hpanic ⊢
  rcases hload : doc.loadIncrementalLogPatches fmt p.doc.patchLog msg.changes.flatten with
    ⟨doc₁, log₁⟩ | ⟨e, doc₁, log₁⟩ | _
  · -- the load succeeds
    have hok := Automerge.loadIncremental_of_logged (show doc.loadIncrementalLogPatches fmt
      p.doc.patchLog msg.changes.flatten = Outcome.after none (doc₁, log₁) from hload)
    obtain ⟨-, hread⟩ := Automerge.loadIncremental_refuses hg hok
    dsimp only
    rw [sound_iff_of_ok hg hok]
    constructor
    · rintro ⟨-, hret⟩
      obtain ⟨msg', cs, hm, hcs, -⟩ := hret _ rfl
      cases hm
      exact ⟨cs, hcs⟩
    · rintro ⟨cs, hcs⟩
      refine ⟨fun p' h => (by cases h), fun p' h => ?_⟩
      cases h
      exact ⟨msg, cs, rfl, hcs, (Automerge.reads_of_chunks hg hcs).trans (hread rfl).known.ge⟩
  · -- the load fails, and what it leaves decides
    have herr := Automerge.loadIncremental_of_logged (show doc.loadIncrementalLogPatches fmt
      p.doc.patchLog msg.changes.flatten = Outcome.after (some e) (doc₁, log₁) from hload)
    obtain ⟨hdoc, hlog⟩ := load_error_unchanged hM hg hload
    dsimp only
    rw [sound_iff_of_error hg herr]
    constructor
    · rintro ⟨hfail, -⟩
      have hsame := hfail _ rfl
      have hclosed₁ := hsame.doc
      rw [hclosed, AutoCommit.ensureTransactionClosed_closed] at hclosed₁
      obtain ⟨hin, hcaps⟩ := state_unchanged.mp hsame.sync
      exact ⟨hin, hcaps, hdoc.mp (Option.some.inj hclosed₁)⟩
    · rintro ⟨hin, hcaps, hcalm⟩
      obtain rfl := hdoc.mpr hcalm
      refine ⟨fun p' h => ?_, fun p' h => (by cases h)⟩
      cases h
      have hsync := state_unchanged.mpr ⟨hin, hcaps⟩
      refine ⟨hclosed.symm, hsync, encode_congr hclosed.symm hsync, fun d hd => ?_⟩
      cases hclosed.symm.trans hd
      exact hlog rfl
  · rw [hload] at hpanic
    exact absurd rfl hpanic

/-- **A message is taken in or turned away whole**, if its header does not decode, it carries no
changes, or its changes are sound for the document, and only then: otherwise an error leaves a
trace in the sync state or the document, or a malformed chunk is dropped without an error. (A
call that ends R neither fails nor returns, whatever the message is.) -/
theorem amSyncDecode_iff (hM : ∀ s, M.applyChanges s [] = s)
    (decode : List UInt8 → Option (Message B)) (p : Peer M B) (hp : p.doc.doc.changeGraph.WF)
    (data : List UInt8) :
    ((∀ msg doc, decode data = some msg → msg.changes ≠ [] →
        p.doc.ensureTransactionClosed = some doc → Sound fmt doc p.sync msg) →
      p.DecodesWhole fmt decode data) ∧
    (p.amSyncDecode fmt decode data ≠ .panic → p.DecodesWhole fmt decode data →
      ∀ msg doc, decode data = some msg → msg.changes ≠ [] →
        p.doc.ensureTransactionClosed = some doc → Sound fmt doc p.sync msg) := by
  refine ⟨fun h => ?_, fun hpanic => (decodesWhole_iff_of_ne_panic hM decode p hp data hpanic).mp⟩
  by_cases hpanic : p.amSyncDecode fmt decode data = .panic
  · unfold DecodesWhole
    rw [hpanic]
    exact ⟨fun _ heq => (by cases heq), fun _ heq => (by cases heq)⟩
  · exact (decodesWhole_iff_of_ne_panic hM decode p hp data hpanic).mpr h

end Peer

/-! ## A message with a byte that is no chunk -/

/-- The scheme of `sync/bloom.rs`, over one word of the hash. -/
def headScheme : BloomScheme ByteHash :=
  BloomFilter.scheme fun h : List ℕ => (h.headD 0, h.headD 0, h.headD 0)

/-- No heads, no needs, no summary, and the single byte 7 for changes. -/
def sevenMessage : Message headScheme := ⟨[], [], [], [[7]], none, .v1⟩

/-- `Message::decode`, on the bytes of that message. -/
def decodeSeven (data : List UInt8) : Option (Message headScheme) :=
  if data = [0x42, 0, 0, 0, 1, 1, 7] then some sevenMessage else none

/-- An empty document that has sent a message to its peer. -/
def waitingPeer : Peer (changeLog ByteHash ℕ ℕ) headScheme :=
  ⟨emptyDoc, { SyncState.new headScheme with inFlight := true, haveResponded := true }⟩

/-- The message is refused, but the peer no longer waits for an answer. -/
theorem amSyncDecode_disturbs : ∃ p', waitingPeer.amSyncDecode byteFormat decodeSeven
      [0x42, 0, 0, 0, 1, 1, 7] = .failed p' ∧ ¬ waitingPeer.Unchanged byteFormat p' := by
  refine ⟨⟨emptyDoc, { SyncState.new headScheme with haveResponded := true }⟩, rfl, ?_⟩
  intro hsame
  have hin := congrArg SyncState.inFlight hsame.sync
  cases hin

/-- A message that carries a change. -/
def changeMessage : Message headScheme := ⟨[], [], [], [byteFormat.rawBytes firstChange], none, .v1⟩

def changeBytes : List UInt8 :=
  [0x42, 0, 0, 0, 1, UInt8.ofNat (byteFormat.rawBytes firstChange).length] ++
    byteFormat.rawBytes firstChange

/-- `Message::decode`, on the bytes of that message. -/
def decodeChange (data : List UInt8) : Option (Message headScheme) :=
  if data = changeBytes then some changeMessage else none

/-- It is taken in by the peer that waits. -/
theorem amSyncDecode_iff_change :
    ∃ p', waitingPeer.amSyncDecode byteFormat decodeChange changeBytes = .returned p' ∧
      ∃ msg, ∃ cs : List (Change ByteHash ℕ ℕ), decodeChange changeBytes = some msg ∧
        byteFormat.Chunks msg.changes.flatten cs ∧ hashesOf cs ⊆ p'.doc.doc.known := by
  have hdecode : decodeChange changeBytes = some changeMessage := if_pos rfl
  have hchunks : byteFormat.Chunks changeMessage.changes.flatten [firstChange] := by
    have hparse := byteFormat.parse_rawBytes firstChange []
    rw [List.append_nil] at hparse
    exact .cons hparse rfl .nil
  -- the one change is accepted
  obtain ⟨-, htotal⟩ := Automerge.loadIncremental_rawBytes byteFormat
    (Automerge.wf_new (M := changeLog ByteHash ℕ ℕ) 0) [firstChange] (by simp [firstChange_honest])
  obtain ⟨doc, hdoc⟩ := htotal fun c hc d hd _ _ => by
    have hone : ∀ c, c ∈ emptyDoc.doc.changeGraph.changes ∨ c ∈ emptyDoc.doc.queue ∨
        c ∈ [firstChange] → c = firstChange := by
      rintro c (hc | hc | hc)
      · cases hc
      · cases hc
      · exact List.mem_singleton.mp hc
    rw [hone c hc, hone d hd]
  have hload : emptyDoc.doc.loadIncremental byteFormat changeMessage.changes.flatten =
      Outcome.after none doc := hdoc
  obtain ⟨log, hlogged, -⟩ := Automerge.loadIncrementalLogPatches_of_subset
    ChangeGraph.wf_new (Finset.empty_subset _) hload
  obtain ⟨herr, -⟩ := Automerge.loadIncremental_refuses ChangeGraph.wf_new hload
  have hreturned : waitingPeer.amSyncDecode byteFormat decodeChange changeBytes =
      .returned ⟨.closed doc log, doc.noteMessage emptyDoc.doc.getHeads waitingPeer.sync
        changeMessage⟩ := by
    have hclosed : waitingPeer.doc.ensureTransactionClosed = some emptyDoc.doc := rfl
    have hreceive : emptyDoc.doc.receiveSyncMessageLogPatches byteFormat waitingPeer.doc.patchLog
        waitingPeer.sync changeMessage = .ok ((doc, log),
          doc.noteMessage emptyDoc.doc.getHeads waitingPeer.sync changeMessage) := by
      rw [Peer.receive_of_changes (by simp [changeMessage]),
        show emptyDoc.doc.loadIncrementalLogPatches byteFormat waitingPeer.doc.patchLog _ = _
          from hlogged]
      rfl
    simp only [Peer.amSyncDecode, hdecode, hclosed, hreceive]
  refine ⟨_, hreturned, ((Peer.amSyncDecode_iff (fun s => List.append_nil s) decodeChange
    waitingPeer ChangeGraph.wf_new changeBytes).1 ?_).2 _ hreturned⟩
  intro msg d hmsg _ hd
  cases hdecode.symm.trans hmsg
  cases hd
  exact Or.inl ⟨fun hno => herr.mpr hno rfl, [firstChange], hchunks⟩

end AutomergeR
