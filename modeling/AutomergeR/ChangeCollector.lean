import AutomergeR.Reload

/-! # The change collector

`op_set2/change/collector.rs`: the columns hold no deletions, and name the successors of an
operation in place of its predecessors. The collector goes over the operations of a saved
document once and gives back those of the changes. What follows an operation stands behind it,
under the same key or element; a successor that has not come up at the end of this run was a
deletion. So the collector finds exactly the operations of the log (`collect_of_replica`).
-/

namespace AutomergeR

variable {A : Type}

/-- `ChangeCollector`, without the builders: what is added to them, by the ids. -/
structure ChangeCollector (A : Type) where
  last : Option (ObjId A × Key A)
  /-- the map `preds`, as the pairs of the keys with the elements of their vectors -/
  preds : List (OpId A × OpId A)
  added : List (OpId A × Op A)

/-- The vector that `preds` has for a key. -/
def predsAt [DecidableEq A] (preds : List (OpId A × OpId A)) (id : OpId A) : List (OpId A) :=
  (preds.filter fun x => x.1 = id).map Prod.snd

/-- `build`. -/
def DocOp.build (op : DocOp A) (pred : List (OpId A)) : OpId A × Op A :=
  (op.id, ⟨op.obj, op.key, op.insert, op.action, pred⟩)

/-- `Op::del`. -/
def delOp (id : OpId A) (key : ObjId A × Key A) (pred : List (OpId A)) : OpId A × Op A :=
  (id, ⟨key.1, key.2, false, .delete, pred⟩)

namespace ChangeCollector

def new : ChangeCollector A := ⟨none, [], []⟩

variable [DecidableEq A]

def flushDeletes (c : ChangeCollector A) : ChangeCollector A :=
  match c.last with
  | some key =>
    { last := none
      preds := []
      added := c.added ++ (c.preds.map Prod.fst).dedup.map fun id => delOp id key (predsAt c.preds id) }
  | none => c

/-- `process_op_internal` behind the flush, and `process_succ` for every successor. -/
def process (c : ChangeCollector A) (op : DocOp A) : ChangeCollector A where
  last := some op.runKey
  preds := (c.preds.filter fun x => x.1 ≠ op.id) ++ op.succ.map fun s => (s, op.id)
  added := c.added ++ [op.build (predsAt c.preds op.id)]

/-- What is added to the builders over a whole document. The map `preds` has no order of its own:
`flush_deletes` may add its deletions in another one. -/
def collect (ops : List (DocOp A)) : List (OpId A × Op A) :=
  (Runs.scan DocOp.runKey flushDeletes process none new ops).added

end ChangeCollector

/-! ## Runs -/

/-- The successors, with the operations they follow. -/
def links (ops : List (DocOp A)) : List (OpId A × OpId A) :=
  ops.flatMap fun op => op.succ.map fun s => (s, op.id)

theorem mem_links {ops : List (DocOp A)} {x : OpId A × OpId A} :
    x ∈ links ops ↔ ∃ op ∈ ops, x.1 ∈ op.succ ∧ op.id = x.2 := by
  unfold links
  rw [List.mem_flatMap]
  refine exists_congr fun op => and_congr_right fun _ => ?_
  rw [List.mem_map]
  constructor
  · rintro ⟨s, hs, rfl⟩
    exact ⟨hs, rfl⟩
  · rintro ⟨hs, hid⟩
    exact ⟨x.1, hs, Prod.ext rfl hid⟩

theorem links_append (ops ops' : List (DocOp A)) : links (ops ++ ops') = links ops ++ links ops' :=
  List.flatMap_append

section

variable [LinearOrder A] {all pre run : List (DocOp A)} {c : ChangeCollector A} {x : DocOp A}

theorem mem_predsAt {preds : List (OpId A × OpId A)} {id e : OpId A} :
    e ∈ predsAt preds id ↔ (id, e) ∈ preds := by
  unfold predsAt
  rw [List.mem_map]
  constructor
  · rintro ⟨y, hy, rfl⟩
    obtain ⟨hmem, hid⟩ := List.mem_filter.mp hy
    obtain rfl : y.1 = id := of_decide_eq_true hid
    exact hmem
  · intro h
    exact ⟨(id, e), List.mem_filter.mpr ⟨h, decide_eq_true rfl⟩, rfl⟩

/-- The successors of the run that have not come up. -/
def pendingLinks (run : List (DocOp A)) : List (OpId A × OpId A) :=
  (links run).filter fun l => !(run.map DocOp.id).contains l.1

theorem pendingLinks_snoc (hx : ∀ s ∈ x.succ, s ∉ (pre ++ [x]).map DocOp.id) :
    pendingLinks (pre ++ [x]) =
      ((pendingLinks pre).filter fun l => l.1 ≠ x.id) ++ x.succ.map fun s => (s, x.id) := by
  unfold pendingLinks
  have hlast : links [x] = x.succ.map fun s => (s, x.id) := by simp [links]
  rw [links_append, List.filter_append, List.filter_filter, hlast]
  congr 1
  · refine List.filter_congr fun l _ => ?_
    simp [Bool.and_comm]
  · refine List.filter_eq_self.mpr fun l hl => ?_
    obtain ⟨s, hs, rfl⟩ := List.mem_map.mp hl
    simpa using hx s hs

theorem predsAt_pendingLinks {id : OpId A} (hid : id ∉ pre.map DocOp.id) :
    predsAt (pendingLinks pre) id = predsAt (links pre) id := by
  unfold predsAt pendingLinks
  rw [List.filter_filter]
  congr 1
  refine List.filter_congr fun l _ => ?_
  by_cases hl : l.1 = id
  · simp [hl, hid]
  · simp [hl]

/-- The links to an id in a part that has all of them. -/
theorem predsAt_part {front post : List (DocOp A)} {id : OpId A} (heq : all = front ++ run ++ post)
    (hother : ∀ op ∈ front ++ post, id ∉ op.succ) :
    predsAt (links all) id = predsAt (links run) id := by
  have hnil : ∀ {ops : List (DocOp A)}, (∀ op ∈ ops, id ∉ op.succ) →
      (links ops).filter (fun l => l.1 = id) = [] := by
    intro ops hops
    refine List.filter_eq_nil_iff.mpr fun l hl hid => ?_
    obtain ⟨op, hop, hs, -⟩ := mem_links.mp hl
    exact hops op hop (of_decide_eq_true hid ▸ hs)
  unfold predsAt
  rw [heq, links_append, links_append, List.filter_append, List.filter_append,
    hnil fun op hop => hother op (List.mem_append_left post hop),
    hnil fun op hop => hother op (List.mem_append_right front hop), List.append_nil, List.nil_append]

/-! ## The loop -/

/-- What is added for a run: its operations, and the deletions that follow them. -/
def collectRun (all run : List (DocOp A)) (key : ObjId A × Key A) : List (OpId A × Op A) :=
  (run.map fun op => op.build (predsAt (links all) op.id)) ++
    ((pendingLinks run).map Prod.fst).dedup.map fun id => delOp id key (predsAt (links all) id)

/-- Operations that have a successor in common are on one key or element. -/
structure Linked (ops : List (DocOp A)) : Prop extends Successive ops where
  common : ∀ x ∈ ops, ∀ y ∈ ops, ∀ s ∈ x.succ, s ∈ y.succ → x.runKey = y.runKey
  once : ∀ x ∈ ops, x.succ.Nodup

/-- The links of a successor of a run are all in the run. -/
theorem Linked.predsAt_run (h : Linked all) {front post : List (DocOp A)}
    (heq : all = front ++ run ++ post) {k : ObjId A × Key A} (hrun : ∀ op ∈ run, op.runKey = k)
    (hother : ∀ op ∈ front ++ post, op.runKey ≠ k) {id : OpId A}
    (hid : (∃ op ∈ run, id ∈ op.succ) ∨ id ∈ run.map DocOp.id) :
    predsAt (links all) id = predsAt (links run) id := by
  have hall : ∀ op ∈ run, op ∈ all := fun op hop => by
    rw [heq]
    simp [hop]
  refine predsAt_part heq fun op hop hs => hother op hop ?_
  have hop' : op ∈ all := by
    rw [heq]
    rcases List.mem_append.mp hop with hop | hop <;> simp [hop]
  rcases hid with ⟨y, hy, hys⟩ | hid
  · rw [h.common op hop' y (hall y hy) id hs hys, hrun y hy]
  · obtain ⟨y, hy, rfl⟩ := List.mem_map.mp hid
    rw [← h.onKey op hop' y (hall y hy) hs, hrun y hy]

namespace ChangeCollector

/-- The operations of a run are gone through. -/
theorem foldl_process (h : Successive all) (post : List (DocOp A)) : ∀ (pre : List (DocOp A))
    (c : ChangeCollector A), c.preds = pendingLinks pre → ∀ front rest,
      all = front ++ (pre ++ post) ++ rest →
        (post.foldl process c).preds = pendingLinks (pre ++ post) ∧
          (post.foldl process c).added =
            c.added ++ post.map fun op => op.build (predsAt (links (pre ++ post)) op.id) := by
  induction post with
  | nil =>
    intro pre c hc _ _ _
    rw [List.append_nil, List.map_nil, List.append_nil]
    exact ⟨hc, rfl⟩
  | cons x post ih =>
    intro pre c hc front rest heq
    have hbehind := h.behind (front ++ pre) x (post ++ rest) (by rw [heq]; simp)
    have hx : ∀ s ∈ x.succ, s ∉ (pre ++ [x]).map DocOp.id := fun s hs hmem =>
      hbehind s hs (by
        rw [List.append_assoc, List.map_append]
        exact List.mem_append_right _ hmem)
    have hpreds : (c.process x).preds = pendingLinks (pre ++ [x]) := by
      rw [pendingLinks_snoc hx, ← hc]
      rfl
    obtain ⟨hp, hadd⟩ := ih (pre ++ [x]) (c.process x) hpreds front rest (by rw [heq]; simp)
    rw [List.append_assoc, List.singleton_append] at hp hadd
    refine ⟨hp, hadd.trans ?_⟩
    have hnew : predsAt c.preds x.id = predsAt (links (pre ++ x :: post)) x.id := by
      have hcut : all = front ++ pre ++ (x :: post ++ rest) := by
        rw [heq]
        simp
      have hnot : x.id ∉ pre.map DocOp.id := fun hmem =>
        h.not_mem hcut List.mem_cons_self (by
          rw [List.map_append]
          exact List.mem_append_right _ hmem)
      -- what comes later does not name it
      have hlater : ∀ op ∈ x :: post, x.id ∉ op.succ := by
        intro op hop hs
        obtain ⟨l, l', hl⟩ := List.append_of_mem hop
        refine h.behind (front ++ pre ++ l) op (l' ++ rest) ?_ x.id hs ?_
        · rw [hcut, hl]
          simp
        · have hin : x ∈ front ++ pre ++ l ++ [op] := by
            cases l with
            | nil =>
              rw [List.nil_append, List.cons.injEq] at hl
              simp [hl.1]
            | cons y l =>
              rw [List.cons_append, List.cons.injEq] at hl
              simp [hl.1]
          exact List.mem_map_of_mem hin
      rw [hc, predsAt_pendingLinks hnot]
      exact (predsAt_part (show pre ++ x :: post = [] ++ pre ++ (x :: post) from rfl) hlater).symm
    show c.added ++ [x.build (predsAt c.preds x.id)] ++ _ = _
    rw [hnew, List.append_assoc, List.map_cons]
    rfl

/-- A run is gone through, and its deletions are added. -/
theorem onRun (h : Linked all) {front rest : List (DocOp A)} (heq : all = front ++ run ++ rest)
    {k : ObjId A × Key A} (hrun : ∀ op ∈ run, op.runKey = k)
    (hother : ∀ op ∈ front ++ rest, op.runKey ≠ k) (hc : c.preds = []) :
    (Runs.onRun flushDeletes process c (k, run)).preds = [] ∧
      (Runs.onRun flushDeletes process c (k, run)).added = c.added ++ collectRun all run k := by
  rcases List.eq_nil_or_concat run with rfl | ⟨init, x, hx⟩
  · exact ⟨hc, (List.append_nil c.added).symm⟩
  · obtain ⟨hp, hadd⟩ := foldl_process h.toSuccessive run [] c hc front rest heq
    rw [List.nil_append] at hp hadd
    have hlast : (run.foldl process c).last = some k := by
      rw [← hrun x (by rw [hx]; simp), hx, List.concat_eq_append, List.foldl_append]
      rfl
    have hne : ¬ run.isEmpty = true := by
      rw [hx, List.concat_eq_append]
      simp
    have hflush : Runs.onRun flushDeletes process c (k, run) = (run.foldl process c).flushDeletes :=
      if_neg hne
    have hids : ∀ op ∈ run, predsAt (links run) op.id = predsAt (links all) op.id := fun op hop =>
      (h.predsAt_run heq hrun hother (Or.inr (List.mem_map_of_mem hop))).symm
    have hdels : ∀ id ∈ ((pendingLinks run).map Prod.fst).dedup,
        predsAt (pendingLinks run) id = predsAt (links all) id := by
      intro id hid
      obtain ⟨l, hl, rfl⟩ := List.mem_map.mp (List.mem_dedup.mp hid)
      obtain ⟨hl, hnot⟩ := List.mem_filter.mp hl
      obtain ⟨op, hop, hs, -⟩ := mem_links.mp hl
      rw [predsAt_pendingLinks (by simpa using hnot),
        h.predsAt_run heq hrun hother (Or.inl ⟨op, hop, hs⟩)]
    rw [hflush]
    unfold flushDeletes
    rw [hlast]
    refine ⟨rfl, ?_⟩
    unfold collectRun
    dsimp only
    rw [hadd, hp, List.append_assoc]
    congr 1
    exact congrArg₂ (· ++ ·) (List.map_congr_left fun op hop => by rw [hids op hop])
      (List.map_congr_left fun id hid => by rw [hdels id hid])

/-- The collector goes over the runs. -/
theorem collect_runs (h : Linked all) {runs : List ((ObjId A × Key A) × List (DocOp A))}
    (hkeyed : Runs.Keyed DocOp.runKey runs) (hruns : Runs.elems runs = all) :
    collect all = runs.flatMap fun run => collectRun all run.2 run.1 := by
  have hloop : ∀ (rest done : List ((ObjId A × Key A) × List (DocOp A))) (c : ChangeCollector A),
      runs = done ++ rest → c.preds = [] → (rest.foldl (Runs.onRun flushDeletes process) c).added =
        c.added ++ rest.flatMap fun run => collectRun all run.2 run.1 := by
    intro rest
    induction rest with
    | nil => exact fun _ c _ _ => (List.append_nil c.added).symm
    | cons run rest ih =>
      intro done c heq hc
      have hall : all = Runs.elems done ++ run.2 ++ Runs.elems rest := by
        rw [← hruns, heq]
        simp [Runs.elems]
      have hrun : run ∈ runs := heq ▸ List.mem_append_right done List.mem_cons_self
      obtain ⟨hp, hadd⟩ := onRun (c := c) h hall (fun op hop => hkeyed.key run hrun op hop)
        (fun op hop => hkeyed.other heq hop) hc
      rw [List.foldl_cons, ih (done ++ [run]) _ (by rw [heq]; simp) hp, hadd, List.append_assoc,
        List.flatMap_cons]
  have hscan : Runs.scan DocOp.runKey flushDeletes process none (new : ChangeCollector A)
      (Runs.elems runs) = runs.foldl (Runs.onRun flushDeletes process) new :=
    Runs.scan_elems hkeyed (fun k hk => by cases hk) new
  unfold collect
  rw [← hruns, hscan, hruns]
  exact hloop runs [] new rfl rfl

theorem mem_collectRun {k : ObjId A × Key A} {p : OpId A × Op A} : p ∈ collectRun all run k ↔
    (∃ op ∈ run, op.build (predsAt (links all) op.id) = p) ∨
      (∃ op ∈ run, p.1 ∈ op.succ) ∧ p.1 ∉ run.map DocOp.id ∧
        p = delOp p.1 k (predsAt (links all) p.1) := by
  unfold collectRun
  rw [List.mem_append, List.mem_map, List.mem_map]
  refine or_congr Iff.rfl ?_
  constructor
  · rintro ⟨id, hid, rfl⟩
    obtain ⟨l, hl, rfl⟩ := List.mem_map.mp (List.mem_dedup.mp hid)
    obtain ⟨hl, hnot⟩ := List.mem_filter.mp hl
    obtain ⟨op, hop, hs, -⟩ := mem_links.mp hl
    have hnot : l.1 ∉ run.map DocOp.id := by simpa using hnot
    exact ⟨⟨op, hop, hs⟩, hnot, rfl⟩
  · rintro ⟨⟨op, hop, hs⟩, hnot, hp⟩
    refine ⟨p.1, List.mem_dedup.mpr (List.mem_map.mpr ⟨(p.1, op.id), ?_, rfl⟩), hp.symm⟩
    exact List.mem_filter.mpr ⟨mem_links.mpr ⟨op, hop, hs, rfl⟩, by simpa using hnot⟩

/-- **What the collector adds**: every operation with those that name it as a successor, and a
deletion for each successor that is not there. -/
theorem mem_collect (h : Linked all) (hg : Runs.Grouped DocOp.runKey all) {p : OpId A × Op A} :
    p ∈ collect all ↔ (∃ op ∈ all, op.build (predsAt (links all) op.id) = p) ∨
      ∃ op ∈ all, p.1 ∈ op.succ ∧ p.1 ∉ all.map DocOp.id ∧
        p = delOp p.1 op.runKey (predsAt (links all) p.1) := by
  obtain ⟨runs, hkeyed, hruns⟩ := hg
  have hmem : ∀ {op : DocOp A}, op ∈ all ↔ ∃ run ∈ runs, op ∈ run.2 := hruns ▸ Runs.mem_elems
  have hids : ∀ run ∈ runs, ∀ op ∈ run.2, ∀ s ∈ op.succ, s ∈ all.map DocOp.id →
      s ∈ run.2.map DocOp.id := by
    intro run hrun op hop s hs hin
    obtain ⟨y, hy, rfl⟩ := List.mem_map.mp hin
    obtain ⟨run', hrun', hy'⟩ := hmem.mp hy
    have hkey := h.onKey op (hmem.mpr ⟨run, hrun, hop⟩) y hy hs
    rw [← hkeyed.eq_of_key hrun' hrun hy' hop hkey]
    exact List.mem_map_of_mem hy'
  rw [collect_runs h hkeyed hruns, List.mem_flatMap]
  constructor
  · rintro ⟨run, hrun, hp⟩
    rcases mem_collectRun.mp hp with ⟨op, hop, rfl⟩ | ⟨⟨op, hop, hs⟩, hnot, hp⟩
    · exact Or.inl ⟨op, hmem.mpr ⟨run, hrun, hop⟩, rfl⟩
    · refine Or.inr ⟨op, hmem.mpr ⟨run, hrun, hop⟩, hs,
        fun hin => hnot (hids run hrun op hop _ hs hin), ?_⟩
      rw [hkeyed.key run hrun op hop]
      exact hp
  · rintro (⟨op, hop, rfl⟩ | ⟨op, hop, hs, hnot, hp⟩)
    · obtain ⟨run, hrun, hop⟩ := hmem.mp hop
      exact ⟨run, hrun, mem_collectRun.mpr (Or.inl ⟨op, hop, rfl⟩)⟩
    · obtain ⟨run, hrun, hop'⟩ := hmem.mp hop
      refine ⟨run, hrun, mem_collectRun.mpr (Or.inr ⟨⟨op, hop', hs⟩, fun hin => hnot ?_, ?_⟩)⟩
      · obtain ⟨y, hy, hid⟩ := List.mem_map.mp hin
        exact List.mem_map.mpr ⟨y, hmem.mpr ⟨run, hrun, hy⟩, hid⟩
      · rwa [← hkeyed.key run hrun op hop']

/-- Nothing is added twice. -/
theorem collect_nodup (h : Linked all) (hg : Runs.Grouped DocOp.runKey all) :
    ((collect all).map Prod.fst).Nodup := by
  obtain ⟨runs, hkeyed, hruns⟩ := hg
  have hmem : ∀ {op : DocOp A}, op ∈ all ↔ ∃ run ∈ runs, op ∈ run.2 := hruns ▸ Runs.mem_elems
  have hrunNodup : ∀ run ∈ runs, (run.2.map DocOp.id).Nodup := fun run hrun => by
    refine h.nodup.sublist (List.Sublist.map _ ?_)
    rw [← hruns]
    exact List.sublist_flatten_of_mem (List.mem_map_of_mem hrun)
  have hbuild : ∀ run : (ObjId A × Key A) × List (DocOp A), (collectRun all run.2 run.1).map Prod.fst =
      run.2.map DocOp.id ++ ((pendingLinks run.2).map Prod.fst).dedup := by
    intro run
    unfold collectRun
    rw [List.map_append, List.map_map, List.map_map]
    exact congrArg _ (List.map_id _)
  rw [collect_runs h hkeyed hruns, List.map_flatMap, List.nodup_flatMap]
  refine ⟨fun run hrun => ?_, ?_⟩
  · rw [hbuild, List.nodup_append]
    refine ⟨hrunNodup run hrun, List.nodup_dedup _, fun id hid id' hid' heq => ?_⟩
    subst heq
    obtain ⟨l, hl, rfl⟩ := List.mem_map.mp (List.mem_dedup.mp hid')
    have hnot := (List.mem_filter.mp hl).2
    exact absurd hid (by simpa using hnot)
  · refine (List.pairwise_map.mp hkeyed.nodup).imp_of_mem
      fun {run run'} hrun hrun' hne id hid hid' => hne ?_
    -- an id is of one key
    have hnames : ∀ {run}, run ∈ runs → id ∈ (collectRun all run.2 run.1).map Prod.fst →
        ∃ op ∈ all, op.runKey = run.1 ∧ (op.id = id ∨ id ∈ op.succ) := by
      intro run hrun hid
      obtain ⟨p, hp, rfl⟩ := List.mem_map.mp hid
      rcases mem_collectRun.mp hp with ⟨op, hop, rfl⟩ | ⟨⟨op, hop, hs⟩, -⟩
      · exact ⟨op, hmem.mpr ⟨run, hrun, hop⟩, hkeyed.key run hrun op hop, Or.inl rfl⟩
      · exact ⟨op, hmem.mpr ⟨run, hrun, hop⟩, hkeyed.key run hrun op hop, Or.inr hs⟩
    obtain ⟨op, hop, hk, hn⟩ := hnames hrun hid
    obtain ⟨op', hop', hk', hn'⟩ := hnames hrun' hid'
    rw [← hk, ← hk']
    rcases hn with hn | hn <;> rcases hn' with hn' | hn'
    · rw [List.inj_on_of_nodup_map h.nodup hop hop' (hn.trans hn'.symm)]
    · exact h.onKey op' hop' op hop (hn ▸ hn')
    · exact (h.onKey op hop op' hop' (hn' ▸ hn)).symm
    · exact h.common op hop op' hop' id hn hn'

end ChangeCollector

/-- The predecessors come in the order of their ids. -/
theorem Linked.predsAt_sorted (h : Linked all) (id : OpId A) :
    (predsAt (links all) id).Pairwise (· < ·) := by
  unfold predsAt
  rw [List.pairwise_map, List.pairwise_filter]
  unfold links
  rw [List.pairwise_flatMap]
  refine ⟨fun op hop => List.pairwise_map.mpr ((h.once op hop).imp fun {s s'} hne hs hs' => ?_),
    h.sorted.imp_of_mem fun {op op'} hop hop' hlt l hl l' hl' hid hid' => ?_⟩
  · exact absurd ((of_decide_eq_true hs).trans (of_decide_eq_true hs').symm) hne
  · obtain ⟨s, hs, rfl⟩ := List.mem_map.mp hl
    obtain ⟨s', hs', rfl⟩ := List.mem_map.mp hl'
    obtain rfl : s = id := of_decide_eq_true hid
    obtain rfl : s' = s := of_decide_eq_true hid'
    exact hlt (h.common op hop op' hop' s' hs hs')

/-! ## What is collected of columns that record a log -/

section

variable {s : OpSet A} {S : Log A} {obj : ObjId A} {r : Row A}
  (hS : S.WF) (h : Represents s S) (hd : Detailed s S) (hplain : S.Plain)

include hS h hd hplain

theorem docOps_linked : Linked s.docOps := by
  refine ⟨docOps_successive hS h hd hplain, fun x hx y hy id hid hid' => ?_, fun x hx => ?_⟩
  · obtain ⟨o, -, r, hr, rfl⟩ := s.mem_docOps.mp hx
    obtain ⟨o', -, r', hr', rfl⟩ := s.mem_docOps.mp hy
    obtain ⟨p, hp, hpid, -, hobj, hkey⟩ := exists_succ hS h hd hplain hr hid
    obtain ⟨q, hq, hqid, -, hobj', hkey'⟩ := exists_succ hS h hd hplain hr' hid'
    obtain rfl := hS.unique p hp q hq (hpid.trans hqid.symm)
    show (o, r.elemidOrKey) = (o', r'.elemidOrKey)
    rw [← hobj, ← hobj', ← hkey, ← hkey']
  · obtain ⟨o, -, r, hr, rfl⟩ := s.mem_docOps.mp hx
    exact (hd.succ o r hr).nodup

/-- The predecessors are found again. -/
theorem predsAt_docOps {p : OpId A × Op A} (hp : p ∈ S) :
    predsAt (links s.docOps) p.1 = p.2.pred := by
  refine sorted_unique ((docOps_linked hS h hd hplain).predsAt_sorted p.1)
    ((hS.rooted p hp).onKey hplain).sorted fun e => ?_
  rw [mem_predsAt, mem_links]
  constructor
  · rintro ⟨op, hop, hs, rfl⟩
    obtain ⟨o, -, r, hr, rfl⟩ := s.mem_docOps.mp hop
    obtain ⟨q, hq, hid, hpred, -⟩ := exists_succ hS h hd hplain hr hs
    obtain rfl := hS.unique q hq p hp hid
    exact hpred
  · intro he
    obtain ⟨-, q, hq, rfl, -, hdel, -⟩ := (hS.rooted p hp).pred e he
    obtain ⟨r, hr, hrec⟩ := h.op q hq hdel
    refine ⟨r.docOp q.2.obj, docOp_mem hS h hr, ?_, hrec.id⟩
    exact List.mem_map.mpr ⟨_, ((hd.succ _ r hr).mem _).mpr ⟨p, hp, hrec.id ▸ he, rfl⟩, rfl⟩

/-- **The collector gives back the log**, deletions included. -/
theorem mem_collect_docOps {p : OpId A × Op A} :
    p ∈ ChangeCollector.collect s.docOps ↔ p ∈ S := by
  have hids : ∀ q ∈ S, q.2.action ≠ .delete → q.1 ∈ s.docOps.map DocOp.id := by
    intro q hq hdel
    obtain ⟨r, hr, hrec⟩ := h.op q hq hdel
    exact List.mem_map.mpr ⟨_, docOp_mem hS h hr, hrec.id⟩
  have hdels : ∀ q ∈ S, q.2.action = .delete →
      delOp q.1 (q.2.obj, q.2.key) (predsAt (links s.docOps) q.1) = q := by
    rintro ⟨id, obj, key, insert, action, pred⟩ hq rfl
    have honKey := (hS.rooted _ hq).onKey hplain
    have hins : insert = false := Bool.eq_false_iff.mpr fun hins =>
      honKey.deletion rfl (honKey.insertion hins)
    rw [predsAt_docOps hS h hd hplain hq, hins]
    rfl
  rw [ChangeCollector.mem_collect (docOps_linked hS h hd hplain) (docOps_grouped hS h hd)]
  constructor
  · rintro (⟨op, hop, rfl⟩ | ⟨op, hop, hs, hnot, hp⟩)
    · obtain ⟨o, -, r, hr, rfl⟩ := s.mem_docOps.mp hop
      obtain ⟨q, hq, rfl, -, hrec⟩ := h.row o r hr
      have hq' : (r.docOp q.2.obj).build (predsAt (links s.docOps) r.id) = q := by
        unfold DocOp.build Row.docOp
        rw [hrec.id, hrec.key, hrec.insert, hrec.action, predsAt_docOps hS h hd hplain hq]
      exact hq' ▸ hq
    · obtain ⟨o, -, r, hr, rfl⟩ := s.mem_docOps.mp hop
      obtain ⟨q, hq, hid, -, hobj, hkey⟩ := exists_succ hS h hd hplain hr hs
      have hdel : q.2.action = .delete := by
        by_contra hdel
        exact hnot (hid ▸ hids q hq hdel)
      have hrunKey : (r.docOp o).runKey = (q.2.obj, q.2.key) := by
        rw [hobj, hkey]
        rfl
      rw [hp, hrunKey, ← hid, hdels q hq hdel]
      exact hq
  · intro hp
    by_cases hdel : p.2.action = .delete
    · right
      obtain ⟨e, he⟩ := List.exists_mem_of_ne_nil _ (((hS.rooted p hp).onKey hplain).deletion hdel)
      rw [← predsAt_docOps hS h hd hplain hp, mem_predsAt, mem_links] at he
      obtain ⟨op, hop, hs, -⟩ := he
      obtain ⟨o, -, r, hr, rfl⟩ := s.mem_docOps.mp hop
      obtain ⟨q, hq, hid, -, hobj, hkey⟩ := exists_succ hS h hd hplain hr hs
      obtain rfl := hS.unique q hq p hp hid
      refine ⟨_, hop, hs, fun hin => ?_, ?_⟩
      · obtain ⟨y, hy, hyid⟩ := List.mem_map.mp hin
        obtain ⟨o', -, r', hr', rfl⟩ := s.mem_docOps.mp hy
        obtain ⟨q', hq', -, hdel', hrec'⟩ := h.row o' r' hr'
        obtain rfl := hS.unique q' hq' q hq (hrec'.id.symm.trans hyid)
        exact hdel' hdel
      · have hrunKey : (r.docOp o).runKey = (q.2.obj, q.2.key) := by
          rw [hobj, hkey]
          rfl
        rw [hrunKey, hdels q hq hdel]
    · left
      obtain ⟨r, hr, hrec⟩ := h.op p hp hdel
      refine ⟨_, docOp_mem hS h hr, ?_⟩
      unfold DocOp.build Row.docOp
      rw [hrec.id, hrec.key, hrec.insert, hrec.action, predsAt_docOps hS h hd hplain hp]

end

end

/-! ## Replicas -/

section

open Automerge

variable {H : Type} [LinearOrder H] [LinearOrder A] [ChangeHash H A (Op A)]
  {reconstruct : List (Change H A (Op A)) → OpSet A} {n : ℕ}

/-- **Of what a replica saves the collector finds its log again**, every operation once. -/
theorem collect_of_replica {d : AutoCommit (columns (H := H) reconstruct n)} (h : Replica d)
    (hplain : d.log.Plain) :
    ((ChangeCollector.collect (OpSet.docOps d.doc.ops)).map Prod.fst).Nodup ∧
      ∀ p, p ∈ ChangeCollector.collect (OpSet.docOps d.doc.ops) ↔ p ∈ d.log := by
  have hrec := h.kept.recorded
  have hd := hrec.detailed hplain
  refine ⟨ChangeCollector.collect_nodup (docOps_linked h.kept.wf hrec.represents hd hplain)
    (docOps_grouped h.kept.wf hrec.represents hd), fun p => ?_⟩
  exact mem_collect_docOps h.kept.wf hrec.represents hd hplain

theorem collect_of_replica_received : ∃ doc, Received doc ∧
    ((ChangeCollector.collect (OpSet.docOps doc.ops)).map Prod.fst).Nodup ∧
      ∀ p, p ∈ ChangeCollector.collect (OpSet.docOps doc.ops) ↔ p ∈ (AutoCommit.ofDoc doc).log := by
  obtain ⟨doc, hdoc⟩ := exists_receivedDoc
  exact ⟨doc, hdoc, collect_of_replica hdoc.replica hdoc.plain⟩

end

end AutomergeR
