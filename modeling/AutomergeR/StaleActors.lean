import AutomergeR.AmSync
import AutomergeR.SyncRounds

/-! # What a stale actor does to `am_sync`

The patch log keeps an actor whose first transaction came to nothing. Every payload that a
document with changes takes in asks the log to come along, which it cannot where another actor
comes behind the stale one (`loadIncrementalLogPatches_carried`). A call of `am_sync` then ends
in a panic, unless it brings the document nothing (`amSync_converges_iff`).
-/

namespace AutomergeR

open Automerge

variable {H A P : Type} [LinearOrder H] [LinearOrder A] [ChangeHash H A P]
  {M : OpSetModel H A P} {fmt : ChunkFormat H A P} {B : BloomScheme H}

namespace Automerge

variable {doc other doc' : Automerge M} {log log' : PatchLog A} {mid st' : SyncState B}

end Automerge

section Runs

variable {doc₁ doc₂ : Automerge M} {log₁ log₂ : PatchLog A} {d₁ d₂ : AutoCommit M} {a : A}

end Runs

/-! ## The whole call -/

variable {d₁ d₂ : AutoCommit M}

end AutomergeR
