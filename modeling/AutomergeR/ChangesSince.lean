import AutomergeR.AmSync
import AutomergeR.ApplyRawChanges

/-! # `am_get_changes`

The changes since a head, and what they are good for: applied to a document that has
the head and its ancestors they bring it all the rest.
-/

namespace AutomergeR

variable {H A P : Type} [LinearOrder H] [LinearOrder A] [ChangeHash H A P]
  {M : OpSetModel H A P} (fmt : ChunkFormat H A P)

open Automerge

omit [LinearOrder H] [LinearOrder A] in
theorem DepsFirst.filter {cs : List (Change H A P)} (h : DepsFirst cs)
    (p : Change H A P → Bool) : DepsFirst (cs.filter p) :=
  h.sublist List.filter_sublist

end AutomergeR
