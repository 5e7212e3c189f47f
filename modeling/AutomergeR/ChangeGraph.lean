import Mathlib.Data.Finset.Max
import Mathlib.Data.Finset.Sort
import Mathlib.Data.List.Nodup
import AutomergeR.Causal.Walk

/-! # The change graph

`change_graph.rs`: the applied changes of a document in the order in which they
were applied, with the index structures the code keeps beside them.

The columns of the Rust struct (`hashes`, `actors`, `seq`, `max_ops`, `parents`,
…) are one list of nodes here, and an actor is its own identifier rather than an
index into the sorted actor table, so `insert_actor`/`remove_actor`, which only
renumber, have nothing to do. A sequence clock is a function to `ℕ` with `0` for
`None`.
-/

namespace AutomergeR

/-! ## Changes -/

/-- `Change`: the fields the graph and the document read. -/
structure Change (H A P : Type) where
  actor : A
  seq : ℕ
  startOp : ℕ
  deps : List H
  ops : List P
  deriving DecidableEq

/-- The change hash, SHA-256 of the encoded change. Taken to be ideal: no two
changes share a hash, and as a change contains the hashes it depends on, no chain
of dependencies descends for ever. -/
class ChangeHash (H A P : Type) where
  hash : Change H A P → H
  hash_injective : Function.Injective hash
  dep_wellFounded : WellFounded fun a b => ∃ c, hash c = b ∧ a ∈ c.deps

variable {H A P : Type}

def Change.hash [ChangeHash H A P] (c : Change H A P) : H := ChangeHash.hash c

theorem Change.hash_inj [ChangeHash H A P] {c d : Change H A P} (h : c.hash = d.hash) :
    c = d :=
  ChangeHash.hash_injective h

/-- The change named by `b` lists `a` as a dependency. -/
def Dep (A P : Type) [ChangeHash H A P] (a b : H) : Prop :=
  ∃ c : Change H A P, c.hash = b ∧ a ∈ c.deps

theorem dep_wellFounded [ChangeHash H A P] : WellFounded (Dep (H := H) A P) :=
  ChangeHash.dep_wellFounded

theorem dep_hash [ChangeHash H A P] {a : H} {c : Change H A P} :
    Dep A P a c.hash ↔ a ∈ c.deps := by
  constructor
  · rintro ⟨d, hd, ha⟩
    exact Change.hash_inj hd ▸ ha
  · exact fun ha => ⟨c, rfl, ha⟩

def Change.maxOp (c : Change H A P) : ℕ := c.startOp + c.ops.length - 1

/-! ## Sequence clocks -/

/-- `SeqClock`: the highest sequence number seen of each actor. -/
abbrev SeqClock (A : Type) := A → ℕ

namespace SeqClock

variable [DecidableEq A]

def new : SeqClock A := fun _ => 0

def includeData (clock : SeqClock A) (actor : A) (data : ℕ) : SeqClock A :=
  Function.update clock actor (max (clock actor) data)

def merge (a b : SeqClock A) : SeqClock A := fun x => max (a x) (b x)

end SeqClock

/-! ## The graph -/

structure Node (H A P : Type) where
  change : Change H A P
  parents : List ℕ

structure ChangeGraph (H A P : Type) where
  nodes : List (Node H A P)
  /-- the actors with a change in the graph -/
  actors : List A
  seqIndex : A → List ℕ
  heads : Finset H
  clockCache : ℕ → Option (SeqClock A)

namespace ChangeGraph

def CACHE_STEP : ℕ := 16

def new : ChangeGraph H A P := ⟨[], [], fun _ => [], ∅, fun _ => none⟩

def changes (g : ChangeGraph H A P) : List (Change H A P) := g.nodes.map Node.change

def parents (g : ChangeGraph H A P) (idx : ℕ) : List ℕ :=
  match g.nodes[idx]? with
  | some n => n.parents
  | none => []

def seqForActor (g : ChangeGraph H A P) (actor : A) : ℕ := (g.seqIndex actor).length

section Clocks

variable [DecidableEq A]

/-- `calculate_clock_inner`: pop the largest index, include its sequence number,
then either merge its cached clock or visit its parents. `limit = none` is
`usize::MAX`. The fuel bounds the number of pops; every pop takes a new index. -/
def calculateClockInner (g : ChangeGraph H A P) (limit : Option ℕ) :
    ℕ → SeqClock A → Finset ℕ → Finset ℕ → SeqClock A × Finset ℕ
  | 0, clock, toVisit, _ => (clock, toVisit)
  | fuel + 1, clock, toVisit, visited =>
    match toVisit.max with
    | none => (clock, toVisit)
    | some idx =>
      let toVisit := toVisit.erase idx
      let visited := insert idx visited
      match g.nodes[idx]? with
      | none => (clock, toVisit)
      | some n =>
        let clock := SeqClock.includeData clock n.change.actor n.change.seq
        match g.clockCache idx with
        | some cached =>
          calculateClockInner g limit fuel (SeqClock.merge clock cached) toVisit visited
        | none =>
          let toVisit := toVisit ∪ (n.parents.filter (· ∉ visited)).toFinset
          if limit.any (· < visited.card) then (clock, toVisit)
          else calculateClockInner g limit fuel clock toVisit visited

/-- `calculate_clock`. -/
def calculateClock (g : ChangeGraph H A P) (nodes : List ℕ) : SeqClock A :=
  (g.calculateClockInner none (g.nodes.length + 1) SeqClock.new nodes.toFinset ∅).1

/-- `cache_clock`: a walk cut off after `2 * CACHE_STEP` nodes; what is left to
visit is cached recursively and merged. The recursion goes to smaller indexes. -/
def cacheClock : ℕ → ChangeGraph H A P → ℕ → SeqClock A × ChangeGraph H A P
  | 0, g, _ => (SeqClock.new, g)
  | fuel + 1, g, nodeIdx =>
    let (clock, toVisit) := g.calculateClockInner (some (CACHE_STEP * 2))
      (g.nodes.length + 1) SeqClock.new {nodeIdx} ∅
    let (clock, g) := (toVisit.sort (· ≤ ·)).foldl
      (fun (acc : SeqClock A × ChangeGraph H A P) n =>
        let (sub, g) := cacheClock fuel acc.2 n
        (SeqClock.merge acc.1 sub, g)) (clock, g)
    (clock, { g with clockCache := Function.update g.clockCache nodeIdx (some clock) })

/-- `get_build_indexes`: cut every actor's changes at its clock entry, put the
rest back into insertion order. -/
def getBuildIndexes (g : ChangeGraph H A P) (clock : SeqClock A) : List ℕ :=
  (g.actors.flatMap fun actor => (g.seqIndex actor).drop (clock actor)).mergeSort (· ≤ ·)

end Clocks

section Hashes

variable [DecidableEq H] [ChangeHash H A P]

def hashes (g : ChangeGraph H A P) : List H := g.changes.map Change.hash

/-- `nodes_by_hash`. -/
def hashToIndex (g : ChangeGraph H A P) (hash : H) : Option ℕ := g.hashes.idxOf? hash

def hasChange (g : ChangeGraph H A P) (hash : H) : Bool := g.hashes.contains hash

/-- `deps_for_hash`, empty for an unknown hash. -/
def depsForHash (g : ChangeGraph H A P) (hash : H) : List H :=
  match g.hashToIndex hash with
  | some idx => (g.parents idx).filterMap (g.hashes[·]?)
  | none => []

def headsToNodes (g : ChangeGraph H A P) (heads : List H) : List ℕ :=
  heads.filterMap g.hashToIndex

def getHashForActorSeq (g : ChangeGraph H A P) (actor : A) (seq : ℕ) : Option H := do
  let idx ← (g.seqIndex actor)[seq - 1]?
  g.hashes[idx]?

def updateHeads (heads : Finset H) (change : Change H A P) : Finset H :=
  insert change.hash (heads \ change.deps.toFinset)

variable [DecidableEq A]

def seqClockForHeads (g : ChangeGraph H A P) (heads : List H) : SeqClock A :=
  g.calculateClock (g.headsToNodes heads)

/-- `get_hashes`: the hashes the given heads do not cover, in insertion order. -/
def getHashes (g : ChangeGraph H A P) (haveDeps : List H) : List H :=
  (g.getBuildIndexes (g.seqClockForHeads haveDeps)).filterMap (g.hashes[·]?)

/-- The node an `add_changes` iteration appends. -/
def pushNode (g : ChangeGraph H A P) (change : Change H A P) : ChangeGraph H A P :=
  { nodes := g.nodes ++ [⟨change, change.deps.filterMap g.hashToIndex⟩]
    actors := if change.actor ∈ g.actors then g.actors else g.actors ++ [change.actor]
    seqIndex := Function.update g.seqIndex change.actor
      (g.seqIndex change.actor ++ [g.nodes.length])
    heads := updateHeads g.heads change
    clockCache := g.clockCache }

/-- `add_change`. `none` is a panic: a missing dependency (`expect`) or a
sequence number that is not the actor's next one (`assert_eq!`). -/
def addChange (g : ChangeGraph H A P) (change : Change H A P) : Option (ChangeGraph H A P) :=
  if g.hasChange change.hash then some g
  else if change.deps.all g.hasChange ∧ g.seqForActor change.actor + 1 = change.seq then
    let g' := g.pushNode change
    if (g.nodes.length + 1) % CACHE_STEP = 0 then
      some (g'.cacheClock g'.nodes.length g.nodes.length).2
    else some g'
  else none

/-- `traverse_ancestors` with the visitor of `remove_ancestors`: the indexes the
stack walk visits. The `Vec` is popped at its end. -/
def traverseAncestors (g : ChangeGraph H A P) (toVisit : List ℕ) : List ℕ :=
  Causal.stackWalk g.parents (fun _ => false)
    (Causal.walkCost g.parents (Finset.range g.nodes.length) toVisit.reverse [])
    toVisit.reverse []

def removeAncestors (g : ChangeGraph H A P) (changes : Finset H) (heads : List H) : Finset H :=
  changes \ ((g.traverseAncestors (g.headsToNodes heads)).filterMap (g.hashes[·]?)).toFinset

end Hashes

end ChangeGraph

end AutomergeR
