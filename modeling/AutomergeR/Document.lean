import AutomergeR.ChangeGraph
import AutomergeR.PatchLog

/-! # Documents

`automerge.rs`, `transaction/inner.rs` and the batch application of
`op_set2/change/batch.rs`: how changes get into a document. What the changes do
to the visible content is the business of an `OpSetModel`; this layer only hands
the applied changes on, in the order in which they were applied.

A call that mutates the document and can fail returns an `Outcome`: an `error`
carries the document the failed call leaves behind, `panic` stands for an
`unwrap`, `expect` or `assert` that fails.
-/

namespace AutomergeR

/-- The op set under a document: its state, the local commands it executes (each
recording the operations it makes) and the two ways changes are put into it. -/
structure OpSetModel (H A P : Type) where
  State : Type
  Cmd : Type
  new : State
  /-- `BatchApply::apply` -/
  applyChanges : State → List (Change H A P) → State
  /-- `reconstruct_opset` -/
  reconstruct : List (Change H A P) → State
  /-- a local operation of `actor` whose first operation would get counter `ctr` -/
  exec : State → (actor : A) → (ctr : ℕ) → Cmd → Option (State × List P)
  /-- the largest number of operations for which `OpEncoderStrategy` picks the `VecEncoder` -/
  vecEncoderMax : ℕ

inductive AutomergeError (H A : Type) where
  | duplicateSeqNumber (seq : ℕ) (actor : A)
  | invalidHash (hash : H)
  | load
  deriving DecidableEq

inductive Outcome (H A D : Type) where
  | ok (doc : D)
  | error (e : AutomergeError H A) (doc : D)
  | panic

def Outcome.map {H A D E : Type} (f : D → E) : Outcome H A D → Outcome H A E
  | .ok doc => .ok (f doc)
  | .error e doc => .error e (f doc)
  | .panic => .panic

structure Automerge {H A P : Type} (M : OpSetModel H A P) where
  /-- changes whose dependencies have not all arrived -/
  queue : List (Change H A P)
  changeGraph : ChangeGraph H A P
  ops : M.State
  /-- the current heads -/
  deps : Finset H
  actor : A
  maxOp : ℕ

variable {H A P : Type}

/-! ## Rebuilding changes from the op set -/

namespace ChangeCollector

/-- A change whose operations all went to another builder of the same change. The
`VecEncoder` reports `MissingOps`, which `from_build_meta_inner` unwraps; the
`ProgressiveEncoder` silently writes a change without operations. -/
def hollow (vecEncoderMax : ℕ) (c : Change H A P) : Option (Change H A P) :=
  if c.ops.length = 0 then some c
  else if c.ops.length ≤ vecEncoderMax then none
  else some { c with startOp := c.maxOp + 1, ops := [] }

/-- `from_build_meta`: the operations of a change go to one builder, found by
binary search over actor and counter, so of several entries for one change a
single one is filled (the first, here). -/
def fromBuildMeta (vecEncoderMax : ℕ) [DecidableEq H] [ChangeHash H A P] :
    List (Change H A P) → List H → Option (List (Change H A P))
  | [], _ => some []
  | c :: cs, seen => do
    let c' ← if c.hash ∈ seen then hollow vecEncoderMax c else some c
    let cs' ← fromBuildMeta vecEncoderMax cs (c.hash :: seen)
    some (c' :: cs')

end ChangeCollector

/-! ## Applying a batch of changes -/

section Batch

variable [DecidableEq H] [LinearOrder A] [ChangeHash H A P] {M : OpSetModel H A P}

namespace Automerge

def new (M : OpSetModel H A P) (actor : A) : Automerge M :=
  { queue := [], changeGraph := .new, ops := M.new, deps := ∅, actor := actor, maxOp := 0 }

/-- The same document with another queue. -/
def withQueue (doc : Automerge M) (queue : List (Change H A P)) : Automerge M :=
  { doc with queue := queue }

def isEmpty (doc : Automerge M) : Bool := doc.changeGraph.nodes.isEmpty && doc.queue.isEmpty

def setActor (doc : Automerge M) (actor : A) : Automerge M := { doc with actor := actor }

/-- The actor table of the op set outside of a transaction: actors without a change are
removed from it again (`remove_unused_actors`). -/
def actors (doc : Automerge M) : Finset A := doc.changeGraph.actors.toFinset

def hasChange (doc : Automerge M) (hash : H) : Bool := doc.changeGraph.hasChange hash

def hasActorSeq (doc : Automerge M) (c : Change H A P) : Bool :=
  c.seq ≤ doc.changeGraph.seqForActor c.actor

def readyQHasHash (doc : Automerge M) (hash : H) : Bool := doc.queue.any (·.hash = hash)

def readyQHasDupe (doc : Automerge M) (c : Change H A P) : Bool :=
  doc.queue.any fun q => q.seq = c.seq ∧ q.actor = c.actor ∧ q.hash ≠ c.hash

/-- `ready` are the changes already in the batch. -/
def isCausallyReady (doc : Automerge M) (ready : List (Change H A P)) (c : Change H A P) : Bool :=
  c.deps.all fun d => doc.changeGraph.hasChange d || ready.any (·.hash = d)

/-- `Vec::swap_remove`. -/
def swapRemove {α : Type} (l : List α) (i : ℕ) : List α :=
  match l.getLast? with
  | some last => (l.set i last).dropLast
  | none => []

def popNextCausallyReadyChange (doc : Automerge M) (ready : List (Change H A P)) :
    Option (Change H A P × Automerge M) := do
  let i ← doc.queue.findIdx? (doc.isCausallyReady ready)
  let c ← doc.queue[i]?
  some (c, doc.withQueue (swapRemove doc.queue i))

end Automerge

/-- `BatchApply` before `apply`: the changes collected so far. The sets `hashes`
and `actor_seq` of the code are read off this list. -/
abbrev BatchApply (H A P : Type) := List (Change H A P)

namespace BatchApply

def hasChange (chap : BatchApply H A P) (doc : Automerge M) (hash : H) : Bool :=
  doc.hasChange hash || chap.any (·.hash = hash) || doc.readyQHasHash hash

def hasActorSeq (chap : BatchApply H A P) (c : Change H A P) : Bool :=
  chap.any fun b => b.actor = c.actor ∧ b.seq = c.seq

def duplicateSeq (chap : BatchApply H A P) (doc : Automerge M) (c : Change H A P) : Bool :=
  doc.hasActorSeq c || chap.hasActorSeq c || doc.readyQHasDupe c

/-- `push` with its two assertions. -/
def push (chap : BatchApply H A P) (c : Change H A P) : Option (BatchApply H A P) :=
  if chap.hasActorSeq c || chap.any (·.hash = c.hash) then none else some (chap ++ [c])

end BatchApply

namespace Automerge

/-- The first loop of `apply_changes_batch_log_patches`: known changes are
skipped, ready ones go into the batch, the others into the queue. -/
def stageChanges : Automerge M → BatchApply H A P → List (Change H A P) →
    Option (Automerge M × BatchApply H A P × Option (AutomergeError H A))
  | doc, chap, [] => some (doc, chap, none)
  | doc, chap, c :: changes =>
    if chap.hasChange doc c.hash then stageChanges doc chap changes
    else if chap.duplicateSeq doc c then
      some (doc, chap, some (.duplicateSeqNumber c.seq c.actor))
    else if doc.isCausallyReady chap c then do
      let chap ← chap.push c
      stageChanges doc chap changes
    else stageChanges (doc.withQueue (doc.queue ++ [c])) chap changes

/-- The second loop: queued changes that have become ready. Every round takes one
change out of the queue. -/
def drainQueue : ℕ → Automerge M → BatchApply H A P → Option (Automerge M × BatchApply H A P)
  | 0, doc, chap => some (doc, chap)
  | fuel + 1, doc, chap =>
    match doc.popNextCausallyReadyChange chap with
    | none => some (doc, chap)
    | some (c, doc) => do
      let chap ← chap.push c
      drainQueue fuel doc chap

/-- `update_history`. -/
def updateHistory (doc : Automerge M) (change : Change H A P) : Option (Automerge M) := do
  let changeGraph ← doc.changeGraph.addChange change
  some { doc with
    maxOp := max doc.maxOp change.maxOp
    deps := ChangeGraph.updateHeads doc.deps change
    changeGraph := changeGraph }

/-- `insert_new_actors`: the actor table with the actors that bring their first change. -/
def insertNewActors (doc : Automerge M) (chap : BatchApply H A P) : Finset A :=
  doc.actors ∪ ((chap.filter fun c => c.seq = 1).map Change.actor).toFinset

/-- The changes of a batch enter the history, and their operations the op set. -/
def importBatch (doc : Automerge M) (chap : BatchApply H A P) : Option (Automerge M) := do
  let doc ← chap.foldlM updateHistory doc
  some { doc with ops := M.applyChanges doc.ops chap }

/-- `BatchApply::apply`. The patch log has to come along with the actor table, which is
unwrapped. -/
def applyBatch (doc : Automerge M) (log : PatchLog A) (chap : BatchApply H A P) :
    Option (Automerge M × PatchLog A) := do
  let log ← log.migrateActors (doc.insertNewActors chap)
  let doc ← doc.importBatch chap
  some (doc, log)

/-- `apply_changes_log_patches`, which is `apply_changes_batch_log_patches`: on a duplicate
sequence number the changes collected before it are applied all the same. -/
def applyChangesLogPatches (doc : Automerge M) (log : PatchLog A) (changes : List (Change H A P)) :
    Outcome H A (Automerge M × PatchLog A) :=
  match doc.stageChanges [] changes with
  | none => .panic
  | some (doc, chap, some e) =>
    match doc.applyBatch log chap with
    | none => .panic
    | some applied => .error e applied
  | some (doc, chap, none) =>
    match doc.drainQueue doc.queue.length chap with
    | none => .panic
    | some (doc, chap) =>
      match doc.applyBatch log chap with
      | none => .panic
      | some applied => .ok applied

/-- `apply_changes`: a patch log of its own. -/
def applyChanges (doc : Automerge M) (changes : List (Change H A P)) :
    Outcome H A (Automerge M) :=
  (doc.applyChangesLogPatches .inactive changes).map Prod.fst

end Automerge

end Batch

/-! ## Reading the history -/

section Read

variable [LinearOrder H] [LinearOrder A] [ChangeHash H A P] {M : OpSetModel H A P}

namespace Automerge

/-- Hashes in their order. -/
abbrev sortHashes (hashes : Finset H) : List H := hashes.sort (· ≤ ·)

def getHeads (doc : Automerge M) : List H := sortHashes doc.deps

def getMissingDeps (doc : Automerge M) (heads : List H) : List H :=
  sortHashes (((doc.queue.flatMap Change.deps ++ heads).filter (fun h => ¬ doc.hasChange h)).toFinset \
    (doc.queue.map Change.hash).toFinset)

/-- `get_changes_by_hashes`: outer `none` is the panic of the collector, `error`
an unknown hash (`MissingDep`). -/
def getChangesByHashes (doc : Automerge M) (hashes : List H) :
    Option (Except H (List (Change H A P))) :=
  match hashes.find? (fun h => ¬ doc.hasChange h) with
  | some h => some (.error h)
  | none =>
    (ChangeCollector.fromBuildMeta M.vecEncoderMax
      (hashes.filterMap fun h => do
        let idx ← doc.changeGraph.hashToIndex h
        doc.changeGraph.changes[idx]?) []).map .ok

/-- The walk of `get_changes_added`: from the other document's heads, stopping at
changes this document has; reversed. -/
def addedHashes (doc other : Automerge M) : List H :=
  (Causal.stackWalk other.changeGraph.depsForHash doc.hasChange
    (Causal.walkCost other.changeGraph.depsForHash other.changeGraph.hashes.toFinset
      other.getHeads.reverse [])
    other.getHeads.reverse []).reverse

/-- `get_changes_added`: the changes of `other` that `doc` has not. Both unwraps
are panics. -/
def getChangesAdded (doc other : Automerge M) : Option (List (Change H A P)) :=
  match other.getChangesByHashes (doc.addedHashes other) with
  | some (.ok changes) => some changes
  | _ => none

/-- `merge_and_log_patches`. -/
def mergeAndLogPatches (doc other : Automerge M) (log : PatchLog A) :
    Outcome H A (Automerge M × PatchLog A) :=
  match doc.getChangesAdded other with
  | none => .panic
  | some changes => doc.applyChangesLogPatches log changes

/-! ## Local transactions -/

end Automerge

/-- `TransactionInner`: what the open transaction has fixed, its operations, and
the op set to go back to on rollback. -/
structure Transaction {H A P : Type} (M : OpSetModel H A P) where
  seq : ℕ
  startOp : ℕ
  deps : List H
  pending : List P
  checkpoint : M.State

namespace Automerge

/-- `transaction_args(None)`: the heads, and the actor's own last change if it is
not one of them. -/
def transactionArgs (doc : Automerge M) : Option (Transaction M) := do
  let seq := doc.changeGraph.seqForActor doc.actor + 1
  let deps := doc.getHeads
  let deps ←
    if 1 < seq then do
      let lastHash ← doc.changeGraph.getHashForActorSeq doc.actor (seq - 1)
      some (if deps.contains lastHash then deps else deps ++ [lastHash])
    else some deps
  some { seq := seq, startOp := doc.maxOp + 1, deps := deps, pending := [],
         checkpoint := doc.ops }

end Automerge

/-- `export`: the change a transaction of `actor` commits. -/
def Transaction.export (tx : Transaction M) (actor : A) : Change H A P :=
  { actor := actor, seq := tx.seq, startOp := tx.startOp,
    deps := tx.deps.mergeSort (· ≤ ·), ops := tx.pending }

/-- A document with the transaction its edits are collected in, and its patch log. -/
structure AutoCommit {H A P : Type} (M : OpSetModel H A P) where
  doc : Automerge M
  transaction : Option (Transaction M)
  patchLog : PatchLog A

namespace AutoCommit

/-- A document with no transaction open. -/
def closed (doc : Automerge M) (log : PatchLog A) : AutoCommit M := ⟨doc, none, log⟩

/-- What `new`, `load` and `fork` make of a document. -/
def ofDoc (doc : Automerge M) : AutoCommit M := closed doc .inactive

/-- The change the open transaction would commit, if it has operations. -/
def pendingChange (d : AutoCommit M) : Option (Change H A P) :=
  match d.transaction with
  | none => none
  | some tx => if tx.pending.isEmpty then none else some (tx.export d.doc.actor)

/-- The changes of the document, uncommitted edits counting as one more. -/
def changes (d : AutoCommit M) : List (Change H A P) :=
  d.doc.changeGraph.changes ++ d.pendingChange.toList

/-- `ensure_transaction_closed`: commit, unless there is nothing to commit. The patch log
stays as it is. -/
def ensureTransactionClosed (d : AutoCommit M) : Option (Automerge M) :=
  match d.pendingChange with
  | none => some d.doc
  | some change => d.doc.updateHistory change

/-- `rollback`. The actor of a transaction that was its first leaves the op set again, but
not the patch log. -/
def rollback (d : AutoCommit M) : AutoCommit M :=
  match d.transaction with
  | none => d
  | some tx => closed { d.doc with ops := tx.checkpoint } d.patchLog

/-- `ensure_transaction_open`. The own actor enters the op set, and with it the patch log. -/
def ensureTransactionOpen (d : AutoCommit M) : Option (Transaction M × PatchLog A) :=
  match d.transaction with
  | some tx => some (tx, d.patchLog)
  | none => do
    let tx ← d.doc.transactionArgs
    let log ← d.patchLog.migrateActors (insert d.doc.actor d.doc.actors)
    some (tx, log)

/-- `commit_with`: a transaction is opened also where there is nothing to commit. -/
def commitWith (d : AutoCommit M) : Option (AutoCommit M) := do
  let (tx, log) ← d.ensureTransactionOpen
  let doc ← { d with transaction := some tx }.ensureTransactionClosed
  some (closed doc log)

/-- A local command: open a transaction if there is none, execute. A command that
fails leaves the op set as it is. -/
def edit (d : AutoCommit M) (cmd : M.Cmd) : Option (AutoCommit M) := do
  let (tx, log) ← d.ensureTransactionOpen
  match M.exec d.doc.ops d.doc.actor (tx.startOp + tx.pending.length) cmd with
  | none => some { d with transaction := some tx, patchLog := log }
  | some (ops, new) =>
    some { doc := { d.doc with ops := ops },
           transaction := some { tx with pending := tx.pending ++ new },
           patchLog := log }

end AutoCommit

/-! ## Rebuilding a saved document -/

/-- The graph of a document chunk. An error is a change out of order, a missing
dependency or a repeated change. -/
def reconstructGraph (changes : List (Change H A P)) : Option (ChangeGraph H A P) :=
  changes.foldlM (fun g c => if g.hasChange c.hash then none else g.addChange c) .new

/-- `reconstruct_document`, for the actor the caller sets afterwards. -/
def reconstructDocument (M : OpSetModel H A P) (actor : A) (changes : List (Change H A P)) :
    Option (Automerge M) := do
  let changeGraph ← reconstructGraph changes
  some { queue := [], changeGraph := changeGraph, ops := M.reconstruct changes,
         deps := changeGraph.heads, actor := actor,
         maxOp := ((changes.filter fun c => ¬ c.ops.isEmpty).map Change.maxOp).foldl max 0 }

end Read

end AutomergeR
