import AutomergeR.BloomFilter
import AutomergeR.LoadIncremental

/-! # The sync protocol

`sync.rs` and `am_sync`. Two peers, each with a document and a sync state about the
other, exchange messages: heads, what they need, a summary of what they have, and
changes. `am_sync` runs the two against each other, each round encoding both sides
before decoding either, until neither has anything to say.

A message travels as it is: what is encoded is what is decoded.
-/

namespace AutomergeR

/-! ## States and messages -/

inductive Capability where
  | messageV1
  | messageV2
  | unknown (v : UInt8)
  deriving DecidableEq

inductive MessageVersion where
  | v1
  | v2

/-- `Have`: the heads at the last sync and a filter of the changes since. -/
structure Have {H : Type} (B : BloomScheme H) where
  lastSync : List H
  bloom : B.Filter

/-- `State`. -/
structure SyncState {H : Type} (B : BloomScheme H) where
  sharedHeads : List H
  lastSentHeads : List H
  theirHeads : Option (List H)
  theirNeed : Option (List H)
  theirHave : Option (List (Have B))
  sentHashes : Finset H
  inFlight : Bool
  haveResponded : Bool
  theirCapabilities : Option (List Capability)

/-- `Message`. -/
structure Message {H : Type} (B : BloomScheme H) where
  heads : List H
  need : List H
  haves : List (Have B)
  changes : List (List UInt8)
  supportedCapabilities : Option (List Capability)
  version : MessageVersion

variable {H A P : Type}

namespace SyncState

variable {B : BloomScheme H}

def new (B : BloomScheme H) : SyncState B where
  sharedHeads := []
  lastSentHeads := []
  theirHeads := none
  theirNeed := none
  theirHave := none
  sentHashes := ∅
  inFlight := false
  haveResponded := false
  theirCapabilities := none

def supportsV2Messages (st : SyncState B) : Bool :=
  (st.theirCapabilities.map (·.contains .messageV2)).getD false

end SyncState

/-- `MessageBuilder::new_v2` drops data of one byte or none. -/
def newV2 (data : List UInt8) : List (List UInt8) := if 1 < data.length then [data] else []

section

variable [LinearOrder H] [LinearOrder A] [ChangeHash H A P] {M : OpSetModel H A P}
  (fmt : ChunkFormat H A P) {B : BloomScheme H}

/-! ## Generating a message -/

namespace Automerge

def makeBloomFilter (B : BloomScheme H) (doc : Automerge M) (lastSync : List H) : Have B :=
  ⟨lastSync, B.fromHashes (doc.changeGraph.getHashes lastSync)⟩

/-- The loop of `get_hashes_to_send` that adds the dependents of what is to be sent.
Every hash is pushed when it is first selected. -/
def selectDependents (dependents : H → List H) : ℕ → List H → Finset H → Finset H
  | 0, _, selected => selected
  | _ + 1, [], selected => selected
  | fuel + 1, hash :: stack, selected =>
    let new := (dependents hash).filter (· ∉ selected)
    selectDependents dependents fuel (new.reverse ++ stack) (selected ∪ new.toFinset)

/-- The set `hashes_to_send`: of `hashes` those no filter claims, and those that
depend on them. -/
def hashesToSend (doc : Automerge M) (haves : List (Have B)) (hashes : List H) : Finset H :=
  let unclaimed := hashes.filter fun h => haves.all fun hv => ¬ B.containsHash hv.bloom h
  selectDependents (fun dep => hashes.filter fun h => (doc.changeGraph.depsForHash h).contains dep)
    (hashes.length + 1) unclaimed.reverse unclaimed.toFinset

/-- `get_hashes_to_send`: what is asked for, and what is to be sent of the changes
since the last sync. -/
def getHashesToSend (doc : Automerge M) (haves : List (Have B)) (need : List H) : List H :=
  if haves.isEmpty then need
  else
    let hashes := doc.changeGraph.getHashes (haves.flatMap Have.lastSync)
    need.filter (· ∉ doc.hashesToSend haves hashes) ++
      hashes.filter (· ∈ doc.hashesToSend haves hashes)

/-- The changes a message carries, with the hashes they count as sent. The inner
`none` is the early return on an unknown hash, the outer one a panic. -/
def changesToSend (doc : Automerge M) (st : SyncState B) :
    Option (Option (List (List UInt8) × List H × MessageVersion)) :=
  match st.theirHave, st.theirNeed with
  | some theirHave, some theirNeed =>
    if st.theirHeads = some [] ∧ st.supportsV2Messages then
      some (some (newV2 (doc.save fmt), doc.changeGraph.getHashes [], .v2))
    else
      let hashes := (doc.getHashesToSend theirHave theirNeed).filter (· ∉ st.sentHashes)
      match doc.getChangesByHashes hashes with
      | none => none
      | some (.error _) => some none
      | some (.ok changes) =>
        if st.supportsV2Messages then
          some (some (newV2 (changes.flatMap fmt.rawBytes), hashes, .v2))
        else some (some (changes.map fmt.rawBytes, hashes, .v1))
  | _, _ => some (some ([], [], if st.supportsV2Messages then .v2 else .v1))

/-- The other side's last sync is not in our history. -/
def mustReset (doc : Automerge M) (st : SyncState B) : Bool :=
  match st.theirHave with
  | some (firstHave :: _) => ¬ firstHave.lastSync.all doc.hasChange
  | _ => false

def resetMessage (doc : Automerge M) : Message B where
  heads := doc.getHeads
  need := []
  haves := [⟨[], B.default⟩]
  changes := []
  supportedCapabilities := some [.messageV1, .messageV2]
  version := .v1

def ourNeed (doc : Automerge M) (st : SyncState B) : List H :=
  doc.getMissingDeps (st.theirHeads.getD [])

def ourHave (doc : Automerge M) (st : SyncState B) : List (Have B) :=
  if (doc.ourNeed st).all (st.theirHeads.getD []).contains then
    [doc.makeBloomFilter B st.sharedHeads]
  else []

/-- Nothing new to say, or an answer still to come. -/
def nothingToSend (doc : Automerge M) (st : SyncState B) (sentHashes : List H) : Bool :=
  st.lastSentHeads = doc.getHeads && st.haveResponded &&
    ((st.theirHeads = some doc.getHeads && sentHashes.isEmpty) || st.inFlight)

/-- The state after a message with `sentHashes` went out. -/
def sent (doc : Automerge M) (st : SyncState B) (sentHashes : List H) : SyncState B :=
  { st with
    haveResponded := true
    lastSentHeads := doc.getHeads
    sentHashes := st.sentHashes ∪ sentHashes.toFinset
    inFlight := true }

/-- `generate_sync_message`; the outer `none` is a panic. -/
def generateSyncMessage (doc : Automerge M) (st : SyncState B) :
    Option (SyncState B × Option (Message B)) :=
  if doc.mustReset st then some (st, some doc.resetMessage)
  else
    match doc.changesToSend fmt st with
    | none => none
    | some none => some (st, none)
    | some (some (changes, sentHashes, version)) =>
      if doc.nothingToSend st sentHashes then some (st, none)
      else
        some (doc.sent st sentHashes, some {
          heads := doc.getHeads
          need := doc.ourNeed st
          haves := doc.ourHave st
          changes := changes
          supportedCapabilities :=
            if st.haveResponded then none else some [.messageV1, .messageV2]
          version := version })

/-! ## Receiving a message -/

/-- `advance_heads`. -/
def advanceHeads (myOldHeads myNewHeads ourOldSharedHeads : List H) : List H :=
  sortHashes (myNewHeads.filter (· ∉ myOldHeads) ++
    ourOldSharedHeads.filter (· ∈ myNewHeads)).toFinset

/-- `filter_changes`. -/
def filterChanges (doc : Automerge M) (heads : List H) (changes : Finset H) : Finset H :=
  doc.changeGraph.removeAncestors changes (heads.filter doc.hasChange)

/-- What `receive_sync_message` notes down once the changes of the message are in
`doc`; `beforeHeads` are the heads the document had before. -/
def noteMessage (doc : Automerge M) (beforeHeads : List H) (st : SyncState B)
    (msg : Message B) : SyncState B :=
  let sharedHeads := if msg.changes.isEmpty then st.sharedHeads
    else advanceHeads beforeHeads doc.getHeads st.sharedHeads
  let knownHeads := msg.heads.filter doc.hasChange
  let allKnown : Bool := knownHeads.length = msg.heads.length
  { sharedHeads :=
      if allKnown then msg.heads
      else sortHashes (sharedHeads ++ knownHeads).toFinset
    lastSentHeads :=
      if allKnown && msg.heads.isEmpty then []
      else if msg.changes.isEmpty && msg.heads = beforeHeads then msg.heads
      else st.lastSentHeads
    sentHashes :=
      if allKnown && msg.heads.isEmpty then ∅ else doc.filterChanges msg.heads st.sentHashes
    theirHave := some msg.haves
    theirHeads := some msg.heads
    theirNeed := some msg.need
    inFlight := false
    haveResponded := st.haveResponded
    theirCapabilities := msg.supportedCapabilities.or st.theirCapabilities }

/-- `receive_sync_message_log_patches`; an error is one of loading the changes. -/
def receiveSyncMessageLogPatches (doc : Automerge M) (log : PatchLog A) (st : SyncState B)
    (msg : Message B) : Outcome H A ((Automerge M × PatchLog A) × SyncState B) :=
  if msg.changes.isEmpty then .ok ((doc, log), doc.noteMessage doc.getHeads st msg)
  else
    match doc.loadIncrementalLogPatches fmt log msg.changes.flatten with
    | .ok (doc', log') => .ok ((doc', log'), doc'.noteMessage doc.getHeads st msg)
    | .error e applied => .error e (applied, { st with
        inFlight := false
        theirCapabilities := msg.supportedCapabilities.or st.theirCapabilities })
    | .panic => .panic

/-- `receive_sync_message`. -/
def receiveSyncMessage (doc : Automerge M) (st : SyncState B) (msg : Message B) :
    Outcome H A (Automerge M × SyncState B) :=
  (doc.receiveSyncMessageLogPatches fmt .inactive st msg).map fun ((doc, _), st) => (doc, st)

end Automerge

/-! ## `am_sync` -/

/-- A document with the sync state it keeps about the other one. -/
structure Peer {H A P : Type} (M : OpSetModel H A P) (B : BloomScheme H) where
  doc : AutoCommit M
  sync : SyncState B

namespace Peer

/-- `am_sync_encode`. -/
def encode (p : Peer M B) : Option (Peer M B × Option (Message B)) := do
  let doc ← p.doc.ensureTransactionClosed
  let (sync, msg) ← doc.generateSyncMessage fmt p.sync
  some (⟨.closed doc p.doc.patchLog, sync⟩, msg)

/-- `am_sync_decode`, where there is a message. `none` is an R error. -/
def decode (p : Peer M B) : Option (Message B) → Option (Peer M B)
  | none => some p
  | some msg => do
    let doc ← p.doc.ensureTransactionClosed
    match doc.receiveSyncMessageLogPatches fmt p.doc.patchLog p.sync msg with
    | .ok ((doc, log), sync) => some ⟨.closed doc log, sync⟩
    | _ => none

end Peer

/-- Where the loop of `am_sync` stands: still running, returned, or left with an
error. -/
inductive SyncRun {H A P : Type} (M : OpSetModel H A P) (B : BloomScheme H) where
  | running (peer1 peer2 : Peer M B)
  | returned (doc1 doc2 : AutoCommit M)
  | failed

/-- One pass through the `repeat` loop. -/
def syncRound (peer1 peer2 : Peer M B) : SyncRun M B :=
  match peer1.encode fmt, peer2.encode fmt with
  | some (peer1, msg1), some (peer2, msg2) =>
    if msg1.isNone ∧ msg2.isNone then .returned peer1.doc peer2.doc
    else
      match peer2.decode fmt msg1, peer1.decode fmt msg2 with
      | some peer2, some peer1 => .running peer1 peer2
      | _, _ => .failed
  | _, _ => .failed

/-- The `repeat` loop, for a number of rounds. -/
def syncLoop : ℕ → Peer M B → Peer M B → SyncRun M B
  | 0, peer1, peer2 => .running peer1 peer2
  | rounds + 1, peer1, peer2 =>
    match syncRound fmt peer1 peer2 with
    | .running peer1 peer2 => syncLoop rounds peer1 peer2
    | run => run

/-- `am_sync`, cut off after a number of rounds. -/
def amSync (B : BloomScheme H) (rounds : ℕ) (doc1 doc2 : AutoCommit M) : SyncRun M B :=
  syncLoop fmt rounds ⟨doc1, .new B⟩ ⟨doc2, .new B⟩

end

end AutomergeR
