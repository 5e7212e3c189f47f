import AutomergeR.CollectedChanges

/-! # Exported changes

`ChangeCollector::from_build_meta_inner`: some of the changes of a document are built again from
its op set, to be sent or saved on their own. Only a part of the operations is gone through
(`iter_ctr_range`): those with a counter in the range of the changes, and those with a successor
in it. This is enough (`exported_of_replica`).
-/

namespace AutomergeR

open Automerge Causal

variable {H A : Type}

/-- The counter is in the range. -/
def OpId.inRange (start stop : ℕ) (id : OpId A) : Bool := start ≤ id.counter && id.counter < stop

/-- `iter_ctr_range`. -/
def iterCtrRange (start stop : ℕ) (ops : List (DocOp A)) : List (DocOp A) :=
  ops.filter fun op => op.id.inRange start stop || op.succ.any (·.inRange start stop)

namespace ChangeCollector

/-- The range of the changes that are exported. -/
def minStart (changes : List (BuildChangeMetadata A)) : ℕ :=
  (changes.map BuildChangeMetadata.startOp).min?.getD 0

def maxStop (changes : List (BuildChangeMetadata A)) : ℕ :=
  (changes.map fun m => m.maxOp).max?.getD 0 + 1

/-- `from_build_meta_inner` from `from_change_meta` on, with what the collector adds and the hashes
of the graph. Its errors are unwrapped. -/
def fromBuildMetaInner [LinearOrder A] (vecEncoderMax : ℕ) (hashes : List H)
    (changes : List (BuildChangeMetadata A)) (added : List (OpId A × Op A)) :
    Except CollectError (List (Change H A (Op A))) :=
  match fill vecEncoderMax changes added with
  | some builders => changes.zipIdx.mapM fun x => x.1.finish builders hashes x.2
  | none => .error .panicked

end ChangeCollector

/-- `get_build_metadata`: the graph has the number of operations. -/
def Change.buildMetadata [DecidableEq H] [ChangeHash H A (Op A)] (changes : List (Change H A (Op A)))
    (c : Change H A (Op A)) : BuildChangeMetadata A :=
  ⟨c.metadata changes, c.maxOp - c.ops.length + 1⟩

section

variable [LinearOrder A] {all : List (DocOp A)} {start stop : ℕ}

/-- A part of the operations is fit for the collector. -/
theorem Linked.filter (h : Linked all) (p : DocOp A → Bool) : Linked (all.filter p) where
  nodup := h.nodup.sublist (List.filter_sublist.map _)
  behind pre x post heq s hs hmem := by
    have hsub : ∀ z ∈ pre ++ x :: post, z ∈ all := fun z hz => List.mem_of_mem_filter (heq ▸ hz)
    have hx := hsub x (by simp)
    obtain ⟨l, l', hl⟩ := List.append_of_mem hx
    obtain ⟨y, hy, rfl⟩ := List.mem_map.mp hmem
    have hya : y ∈ all := hsub y (by
      rcases List.mem_append.mp hy with hy | hy
      · simp [hy]
      · simp [List.mem_singleton.mp hy])
    have hkey := h.onKey x hx y hya hs
    have hnot := h.behind l x l' hl y.id hs
    rcases List.mem_append.mp hy with hy | hy
    · -- a successor stands behind in the whole, and so in the part
      have hsorted := h.sorted.filter p
      rw [heq] at hsorted
      have hlt := (List.pairwise_append.mp hsorted).2.2 y hy x List.mem_cons_self hkey
      have hall := h.sorted
      rw [hl] at hya hall
      rcases List.mem_append.mp hya with hyl | hyl
      · exact hnot (List.mem_map_of_mem (List.mem_append_left _ hyl))
      · rcases List.mem_cons.mp hyl with rfl | hyl
        · exact lt_irrefl _ hlt
        · exact lt_asymm hlt
            ((List.pairwise_cons.mp (List.pairwise_append.mp hall).2.1).1 y hyl hkey.symm)
    · rw [List.mem_singleton.mp hy] at hnot
      exact hnot (List.mem_map_of_mem (List.mem_append_right l List.mem_cons_self))
  onKey x hx y hy := h.onKey x (List.mem_of_mem_filter hx) y (List.mem_of_mem_filter hy)
  sorted := h.sorted.filter p
  common x hx y hy := h.common x (List.mem_of_mem_filter hx) y (List.mem_of_mem_filter hy)
  once x hx := h.once x (List.mem_of_mem_filter hx)

theorem Linked.iterCtrRange (h : Linked all) : Linked (iterCtrRange start stop all) := h.filter _

omit [LinearOrder A] in
theorem grouped_iterCtrRange (hg : Runs.Grouped DocOp.runKey all) :
    Runs.Grouped DocOp.runKey (iterCtrRange start stop all) := hg.filter _

/-- The links to an id in the range are those of the whole. -/
theorem predsAt_iterCtrRange {id : OpId A} (hid : id.inRange start stop = true) :
    predsAt (links (iterCtrRange start stop all)) id = predsAt (links all) id := by
  unfold predsAt iterCtrRange
  congr 1
  induction all with
  | nil => rfl
  | cons op all ih =>
    have hcons : ∀ ops : List (DocOp A), links (op :: ops) = links [op] ++ links ops :=
      fun ops => links_append [op] ops
    rw [List.filter_cons, hcons all, List.filter_append]
    split
    · rw [hcons, List.filter_append, ih]
    · rename_i hout
      have hnil : (links [op]).filter (fun l => l.1 = id) = [] := by
        refine List.filter_eq_nil_iff.mpr fun l hl heq => hout ?_
        obtain ⟨y, hy, hs, -⟩ := mem_links.mp hl
        rw [List.mem_singleton.mp hy, of_decide_eq_true heq] at hs
        rw [List.any_eq_true.mpr ⟨id, hs, hid⟩, Bool.or_true]
      rw [hnil, List.nil_append, ih]

/-- **In the range the part gives what the whole gives.** -/
theorem mem_collect_iterCtrRange (h : Linked all) (hg : Runs.Grouped DocOp.runKey all)
    {p : OpId A × Op A} (hp : p.1.inRange start stop = true) :
    p ∈ ChangeCollector.collect (iterCtrRange start stop all) ↔ p ∈ ChangeCollector.collect all := by
  have hpart : ∀ {op : DocOp A}, op ∈ iterCtrRange start stop all ↔
      op ∈ all ∧ (op.id.inRange start stop || op.succ.any (·.inRange start stop)) = true :=
    List.mem_filter
  have hids : p.1 ∈ (iterCtrRange start stop all).map DocOp.id ↔ p.1 ∈ all.map DocOp.id := by
    rw [List.mem_map, List.mem_map]
    refine exists_congr fun op => ⟨fun ⟨hop, hid⟩ => ⟨(hpart.mp hop).1, hid⟩,
      fun ⟨hop, hid⟩ => ⟨hpart.mpr ⟨hop, ?_⟩, hid⟩⟩
    rw [hid, hp, Bool.true_or]
  rw [ChangeCollector.mem_collect h.iterCtrRange (grouped_iterCtrRange hg),
    ChangeCollector.mem_collect h hg]
  refine or_congr (exists_congr fun op => ?_) (exists_congr fun op => ?_)
  · constructor
    · rintro ⟨hop, hbuild⟩
      have hid : op.id = p.1 := congrArg Prod.fst hbuild
      refine ⟨(hpart.mp hop).1, ?_⟩
      rwa [← predsAt_iterCtrRange (hid ▸ hp)]
    · rintro ⟨hop, hbuild⟩
      have hid : op.id = p.1 := congrArg Prod.fst hbuild
      refine ⟨hpart.mpr ⟨hop, by rw [hid, hp, Bool.true_or]⟩, ?_⟩
      show op.build (predsAt (links (iterCtrRange start stop all)) op.id) = p
      rwa [predsAt_iterCtrRange (hid ▸ hp)]
  · show op ∈ iterCtrRange start stop all ∧ _ ∧ p.1 ∉ (iterCtrRange start stop all).map DocOp.id ∧
      p = delOp p.1 op.runKey (predsAt (links (iterCtrRange start stop all)) p.1) ↔ _
    rw [hids, predsAt_iterCtrRange hp]
    constructor
    · rintro ⟨hop, hs, hrest⟩
      exact ⟨(hpart.mp hop).1, hs, hrest⟩
    · rintro ⟨hop, hs, hrest⟩
      refine ⟨hpart.mpr ⟨hop, ?_⟩, hs, hrest⟩
      rw [List.any_eq_true.mpr ⟨p.1, hs, hp⟩, Bool.or_true]

end

section

variable {ms : List (BuildChangeMetadata A)} {m : BuildChangeMetadata A}

theorem minStart_le (hm : m ∈ ms) : ChangeCollector.minStart ms ≤ m.startOp := by
  unfold ChangeCollector.minStart
  cases hmin : (ms.map BuildChangeMetadata.startOp).min? with
  | none => exact Nat.zero_le _
  | some x => exact (List.min?_eq_some_iff.mp hmin).2 _ (List.mem_map_of_mem hm)

theorem lt_maxStop (hm : m ∈ ms) : m.maxOp < ChangeCollector.maxStop ms := by
  unfold ChangeCollector.maxStop
  cases hmax : (ms.map fun m => m.maxOp).max? with
  | none =>
    rw [List.max?_eq_none_iff, List.map_eq_nil_iff] at hmax
    rw [hmax] at hm
    cases hm
  | some x =>
    exact Nat.lt_succ_of_le ((List.max?_eq_some_iff.mp hmax).2 _
      (List.mem_map_of_mem (f := fun m : BuildChangeMetadata A => m.maxOp) hm))

end

section

variable [LinearOrder H] [LinearOrder A] [ChangeHash H A (Op A)]
  {changes cs : List (Change H A (Op A))} {c : Change H A (Op A)}

omit [LinearOrder H] [LinearOrder A] [ChangeHash H A (Op A)] in
/-- The graph has the start of a change. -/
theorem maxOp_sub_length (hpos : 0 < c.startOp) (hne : c.ops ≠ []) :
    c.maxOp - c.ops.length + 1 = c.startOp := by
  have hlen := List.length_pos_iff.mpr hne
  unfold Change.maxOp
  omega

omit [LinearOrder H] in
/-- Builders that begin with their changes. -/
theorem History.begins_startOp (h : History (hashesOf changes) A) (hnd : cs.Nodup)
    (hcs : ∀ c ∈ cs, c ∈ changes) : Begins changes cs fun c => c.maxOp - c.ops.length + 1 := by
  have hgrounded : ∀ c ∈ cs, c.Grounded := fun c hc => h.grounded c (mem_hashesOf.mpr (hcs c hc))
  have hstart : ∀ c ∈ cs, c.maxOp - c.ops.length + 1 = c.startOp := fun c hc =>
    maxOp_sub_length (hgrounded c hc).pos (hgrounded c hc).nonempty
  refine ⟨hnd, hcs, fun c hc => (hstart c hc).le, fun c hc d hd => ?_⟩
  show d.maxOp < c.maxOp - c.ops.length + 1
  rw [hstart c hc]
  exact (hgrounded c hc).after d hd

omit [LinearOrder A] in
/-- Changes of which the builders are filled are finished as they were. -/
theorem mapM_finish {builders : List (ChangeBuilder A)}
    (hdeps : ∀ c ∈ cs, ∀ x ∈ c.deps, x ∈ hashesOf changes)
    (hfinish : ∀ i c, cs[i]? = some c →
      ChangeCollector.finishBuilder builders (c.buildMetadata changes) i =
        .ok (c.startOp, c.identified)) :
    (cs.map fun c => c.buildMetadata changes).zipIdx.mapM
      (fun x => x.1.finish builders (changes.map Change.hash) x.2) = .ok cs := by
  have hzip : (cs.map fun c => c.buildMetadata changes).zipIdx =
      cs.zipIdx.map fun x => (x.1.buildMetadata changes, x.2) := List.zipIdx_map
  have hfirst : cs.zipIdx.map Prod.fst = cs := List.zipIdx_map_fst ..
  rw [hzip]
  refine (mapM_map_eq_pure (k := Prod.fst) fun x hx => ?_).trans (congrArg Except.ok hfirst)
  have hget := List.mem_zipIdx_iff_getElem?.mp hx
  refine Change.finish_metadata _ [] _ ?_ (hdeps x.1 (List.mem_of_getElem? hget))
    (hfinish x.2 x.1 hget)
  rw [List.append_nil]
  rfl

variable {reconstruct : List (Change H A (Op A)) → OpSet A} {n : ℕ}

/-- **Whatever changes are exported are built as they were**, where increments are made to
counters of maps only and no change is asked for twice. -/
theorem exported_of_replica {doc : Automerge (columns (H := H) reconstruct n)}
    (h : Replica (.ofDoc doc)) (hplain : (AutoCommit.ofDoc doc).log.Plain) (hnodup : cs.Nodup)
    (hcs : ∀ c ∈ cs, c ∈ doc.changeGraph.changes) {metas : List (BuildChangeMetadata A)}
    (hmetas : metas = cs.map fun c => c.buildMetadata doc.changeGraph.changes)
    {added : List (OpId A × Op A)}
    (hadded : added.Perm (ChangeCollector.collect (iterCtrRange (ChangeCollector.minStart metas)
      (ChangeCollector.maxStop metas) (OpSet.docOps doc.ops)))) :
    ChangeCollector.fromBuildMetaInner n (doc.changeGraph.changes.map Change.hash) metas added =
      .ok cs := by
  have hhistory := h.history_ofDoc
  have hwf := h.kept.wf
  have hrec := h.kept.recorded
  have hd := hrec.detailed hplain
  have hlinked : Linked (OpSet.docOps doc.ops) := docOps_linked hwf hrec.represents hd hplain
  have hgrouped : Runs.Grouped DocOp.runKey (OpSet.docOps doc.ops) :=
    docOps_grouped hwf hrec.represents hd
  have hnd : (added.map Prod.fst).Nodup := (hadded.map Prod.fst).nodup_iff.mpr
    (ChangeCollector.collect_nodup hlinked.iterCtrRange (grouped_iterCtrRange hgrouped))
  have hlog : ∀ c ∈ cs, ∀ p : OpId A × Op A, c.maxOp - c.ops.length + 1 ≤ p.1.counter →
      p.1.counter ≤ c.maxOp →
        (p ∈ added ↔ p ∈ (logAt (hashesOf doc.changeGraph.changes) : Log A)) := by
    intro c hc p hlow hhigh
    have hm : c.buildMetadata doc.changeGraph.changes ∈ metas :=
      hmetas ▸ List.mem_map_of_mem hc
    have hrange : p.1.inRange (ChangeCollector.minStart metas) (ChangeCollector.maxStop metas) =
        true := by
      unfold OpId.inRange
      rw [Bool.and_eq_true, decide_eq_true_eq, decide_eq_true_eq]
      exact ⟨(minStart_le hm).trans hlow, hhigh.trans_lt (lt_maxStop hm)⟩
    rw [hadded.mem_iff, mem_collect_iterCtrRange hlinked hgrouped hrange, ← applied_eq_hashesOf,
      ← AutoCommit.log_ofDoc]
    exact mem_collect_docOps hwf hrec.represents hd hplain
  obtain ⟨builders, hfill, hfinish⟩ := hhistory.fill (n := n)
    (hhistory.begins_startOp hnodup hcs) hnd hlog
  have hfill : ChangeCollector.fill n metas added = some builders := hmetas ▸ hfill
  unfold ChangeCollector.fromBuildMetaInner
  rw [hfill, hmetas]
  exact mapM_finish (fun c hc x hx => hhistory.closed (dep_hash.mpr hx)
    (mem_hashesOf.mpr (hcs c hc))) hfinish

/-- All changes are exported, the last one first. -/
theorem exported_of_replica_received : ∃ doc metas, Received doc ∧
    metas = doc.changeGraph.changes.reverse.map
      (fun c => c.buildMetadata doc.changeGraph.changes) ∧
    ChangeCollector.fromBuildMetaInner 4 (doc.changeGraph.changes.map Change.hash) metas
      (ChangeCollector.collect (iterCtrRange (ChangeCollector.minStart metas)
        (ChangeCollector.maxStop metas) (OpSet.docOps doc.ops))).reverse =
          .ok doc.changeGraph.changes.reverse := by
  obtain ⟨doc, hdoc⟩ := exists_receivedDoc
  have hnodup : doc.changeGraph.changes.Nodup := List.Nodup.of_map _ hdoc.replica.wf.graph.nodup
  exact ⟨doc, _, hdoc, rfl, exported_of_replica hdoc.replica hdoc.plain
    (List.nodup_reverse.mpr hnodup) (fun _ hc => List.mem_reverse.mp hc) rfl (List.reverse_perm _)⟩

end

end AutomergeR
