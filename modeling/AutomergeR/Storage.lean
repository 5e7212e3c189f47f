import AutomergeR.ChangeHistory
import AutomergeR.Document

/-! # Saving and loading

`storage/chunk.rs`, `storage/load.rs` and the load functions of `automerge.rs`:
from bytes to changes to a document. The binary layout of a chunk is the parameter
`ChunkFormat`; what is kept of it is that a chunk is consumed, and that what was
written reads back.

Loading is where `am_apply_changes` and the sync protocol meet a document. An empty
document is replaced by a freshly loaded one (`load_with_options`), any other one
takes the changes through `apply_changes`; the two treat a malformed rest
differently.
-/

namespace AutomergeR

variable {H A P : Type}

/-! ## Chunks -/

/-- `Chunk`, after parsing. Every kind carries what decoding its columns yields, `none`
for a decoding error. -/
inductive ChunkBody (H A P : Type) where
  | document (heads : List H) (changes : Option (List (Change H A P)))
  | change (change : Option (Change H A P))
  | bundle (changes : Option (List (Change H A P)))
  | compressedChange (change : Option (Change H A P))

structure Chunk (H A P : Type) where
  checksumValid : Bool
  body : ChunkBody H A P

/-- `load::Error`. -/
inductive LoadError where
  | parse
  | badChecksum
  | inflateDocument
  | invalidChangeColumns
  | invalidBundle
  deriving DecidableEq

/-- `LoadedChanges`. -/
inductive LoadedChanges (H A P : Type) where
  | complete (changes : List (Change H A P))
  | partialLoad (loaded : List (Change H A P)) (error : LoadError)

section Read

variable [LinearOrder H] [LinearOrder A] [ChangeHash H A P]

/-- The storage format: the parser of one chunk, which leaves less than it was given,
and the writers of change chunks (`raw_bytes`) and document chunks, which it undoes.
A document chunk holds the changes of a graph in graph order. -/
structure ChunkFormat (H A P : Type) [LinearOrder H] [LinearOrder A] [ChangeHash H A P] where
  parse : List UInt8 → Option (Chunk H A P × List UInt8)
  parse_shorter : ∀ {data chunk remaining}, parse data = some (chunk, remaining) →
    remaining.length < data.length
  rawBytes : Change H A P → List UInt8
  rawBytes_length : ∀ c, 1 < (rawBytes c).length
  parse_rawBytes : ∀ c rest, parse (rawBytes c ++ rest) = some (⟨true, .change (some c)⟩, rest)
  documentBytes : List H → List (Change H A P) → List UInt8
  documentBytes_length : ∀ heads changes, 1 < (documentBytes heads changes).length
  parse_documentBytes : ∀ (g : ChangeGraph H A P) (rest : List UInt8), g.WF →
    parse (documentBytes (g.heads.sort (· ≤ ·)) g.changes ++ rest) =
      some (⟨true, .document (g.heads.sort (· ≤ ·)) (some g.changes)⟩, rest)

namespace ChunkFormat

variable (fmt : ChunkFormat H A P)

/-- `load_next_change`: a document chunk whose heads are all known is skipped
unread. Otherwise its graph has to come together, but its heads are not checked. -/
def loadNextChange (current : ChangeGraph H A P) (data : List UInt8) :
    Except LoadError (List (Change H A P) × List UInt8) :=
  match fmt.parse data with
  | none => .error .parse
  | some (chunk, remaining) =>
    if !chunk.checksumValid then .error .badChecksum
    else
      match chunk.body with
      | .document heads changes =>
        if heads.all current.hasChange then .ok ([], remaining)
        else
          match changes.filter fun cs => (reconstructGraph cs).isSome with
          | none => .error .inflateDocument
          | some cs => .ok (cs, remaining)
      | .change none => .error .invalidChangeColumns
      | .change (some c) => .ok ([c], remaining)
      | .bundle none => .error .invalidBundle
      | .bundle (some cs) => .ok (cs, remaining)
      | .compressedChange none => .error .invalidChangeColumns
      | .compressedChange (some c) => .ok ([c], remaining)

theorem loadNextChange_shorter {current : ChangeGraph H A P} {data remaining : List UInt8}
    {cs : List (Change H A P)} (h : fmt.loadNextChange current data = .ok (cs, remaining)) :
    remaining.length < data.length := by
  unfold loadNextChange at h
  split at h
  · cases h
  · rename_i chunk remaining' hparse
    have hlt := fmt.parse_shorter hparse
    suffices hrem : remaining = remaining' by rwa [hrem]
    split at h
    · cases h
    · split at h
      · split at h
        · simp_all
        · split at h <;> simp_all
      all_goals simp_all

/-- `load_changes`: chunk after chunk until the data ends or a chunk is no good. -/
def loadChanges (current : ChangeGraph H A P) (data : List UInt8)
    (changes : List (Change H A P)) : LoadedChanges H A P :=
  if data.isEmpty then .complete changes
  else
    match _h : fmt.loadNextChange current data with
    | .error e => .partialLoad changes e
    | .ok (cs, remaining) => loadChanges current remaining (changes ++ cs)
termination_by data.length
decreasing_by exact fmt.loadNextChange_shorter _h

end ChunkFormat

/-! ## Documents -/

namespace Automerge

variable (fmt : ChunkFormat H A P) {M : OpSetModel H A P}

/-- `save`: a document chunk, then the queue. -/
def save (doc : Automerge M) : List UInt8 :=
  fmt.documentBytes (sortHashes doc.changeGraph.heads) doc.changeGraph.changes ++
    doc.queue.flatMap fmt.rawBytes

/-- What the first chunk of a load gives: the document to go on with and the changes
still to be applied. The heads of a document chunk are checked. -/
def loadFirstChunk (M : OpSetModel H A P) (actor : A) :
    ChunkBody H A P → Option (Automerge M × List (Change H A P))
  | .document heads changes => do
    let changes ← changes
    let doc ← reconstructDocument M actor changes
    if doc.changeGraph.heads = heads.toFinset then some (doc, []) else none
  | .change c => c.map fun c => (.new M actor, [c])
  | .bundle cs => cs.map fun cs => (.new M actor, cs)
  | .compressedChange c => c.map fun c => (.new M actor, [c])

/-- `load_with_options` with `OnPartialLoad::Ignore` and `VerificationMode::Check`,
as `load_incremental` calls it. When the data after the first chunk is malformed,
nothing of it is applied, nor is the first chunk's change. `none` is a panic. -/
def loadWithOptions (M : OpSetModel H A P) (actor : A) (data : List UInt8) :
    Option (Except (AutomergeError H A) (Automerge M)) :=
  if data.isEmpty then some (.ok (.new M actor))
  else
    match fmt.parse data with
    | none => some (.error .load)
    | some (chunk, remaining) =>
      if !chunk.checksumValid then some (.error .load)
      else
        match loadFirstChunk M actor chunk.body with
        | none => some (.error .load)
        | some (doc, changes) =>
          match fmt.loadChanges doc.changeGraph remaining [] with
          | .complete c =>
            match doc.applyChanges (changes ++ c) with
            | .ok doc => some (.ok doc)
            | .error e _ => some (.error e)
            | .panic => none
          | .partialLoad _ _ => some (.ok doc)

/-- `load_incremental_log_patches`: on a non-empty document a partial load is no error, and
what was loaded is applied. A document that replaces an empty one leaves the log alone. -/
def loadIncrementalLogPatches (doc : Automerge M) (log : PatchLog A) (data : List UInt8) :
    Outcome H A (Automerge M × PatchLog A) :=
  if doc.isEmpty then
    match loadWithOptions fmt M doc.actor data with
    | none => .panic
    | some (.error e) => .error e (doc, log)
    | some (.ok doc') => .ok (doc', log)
  else
    match fmt.loadChanges doc.changeGraph data [] with
    | .complete changes => doc.applyChangesLogPatches log changes
    | .partialLoad loaded _ => doc.applyChangesLogPatches log loaded

/-- `load_incremental`. -/
def loadIncremental (doc : Automerge M) (data : List UInt8) : Outcome H A (Automerge M) :=
  (doc.loadIncrementalLogPatches fmt .inactive data).map Prod.fst

end Automerge

/-! ## The package's calls -/

/-- What a call to `am_apply_changes` comes to: an error is "Failed to apply change at
index …". -/
inductive ApplyResult {H A P : Type} (M : OpSetModel H A P) where
  | ok (doc : AutoCommit M)
  | failedToApply (index : ℕ) (e : AutomergeError H A) (doc : AutoCommit M)
  | panic

namespace AutoCommit

variable (fmt : ChunkFormat H A P) {M : OpSetModel H A P}

/-- `AMloadIncremental`. -/
def loadIncremental (d : AutoCommit M) (data : List UInt8) : Outcome H A (AutoCommit M) :=
  match d.ensureTransactionClosed with
  | none => .panic
  | some doc =>
    (doc.loadIncrementalLogPatches fmt d.patchLog data).map fun (doc, log) => closed doc log

/-- `C_am_apply_changes` from index `i` on. -/
def applyChanges (i : ℕ) (d : AutoCommit M) : List (List UInt8) → ApplyResult M
  | [] => .ok d
  | data :: rest =>
    match d.loadIncremental fmt data with
    | .ok d => applyChanges (i + 1) d rest
    | .error e d => .failedToApply i e d
    | .panic => .panic

/-- `am_apply_changes`. -/
def amApplyChanges (d : AutoCommit M) (changes : List (List UInt8)) : ApplyResult M :=
  d.applyChanges fmt 0 changes

/-- `am_get_changes_added`. -/
def amGetChangesAdded (d other : AutoCommit M) :
    Option (AutoCommit M × AutoCommit M × List (List UInt8)) := do
  let doc ← d.ensureTransactionClosed
  let odoc ← other.ensureTransactionClosed
  let changes ← doc.getChangesAdded odoc
  some (closed doc d.patchLog, closed odoc other.patchLog, changes.map fmt.rawBytes)

/-- `am_merge`. -/
def amMerge (d other : AutoCommit M) : Outcome H A (AutoCommit M × AutoCommit M) :=
  match d.ensureTransactionClosed, other.ensureTransactionClosed with
  | some doc, some odoc =>
    (doc.mergeAndLogPatches odoc d.patchLog).map fun (doc, log) =>
      (closed doc log, closed odoc other.patchLog)
  | _, _ => .panic

end AutoCommit

end Read

end AutomergeR
