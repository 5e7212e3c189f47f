import AutomergeR.ApplyChanges

/-! # Reachable documents

The documents the package's calls can produce, from fresh ones by edits, commits,
rollbacks, changes of actor, copies, saved documents loaded back, and changes made
by any other reachable document, in any order and with any repetitions
(`am_merge`, `am_apply_changes`, `am_sync` and `am_fork` all come down to the last).
Documents are values, so a run over many replicas is a derivation of
`Reachable`. Every reachable document is well formed (`Reachable.wf`).

What a patch log may hold is left open (`relog`): it decides whether a call panics, not what
the call does. Where that matters, `LogFits` is asked for.
-/

namespace AutomergeR

variable {H A P : Type} [LinearOrder H] [LinearOrder A] [ChangeHash H A P]
  {M : OpSetModel H A P}

/-- A change made locally has not been received before: actor identifiers are not
shared between replicas that edit. In a settled document this holds of itself
(`fresh_of_settled`). -/
def AutoCommit.Fresh (d : AutoCommit M) : Prop :=
  ∀ c, d.pendingChange = some c → c.hash ∉ d.doc.held

inductive Reachable : AutoCommit M → Prop
  | create (actor : A) : Reachable (.ofDoc (.new M actor))
  | edit {d d' : AutoCommit M} (cmd : M.Cmd) (hd : Reachable d) (h : d.edit cmd = some d') :
      Reachable d'
  | commit {d : AutoCommit M} {doc : Automerge M} (hd : Reachable d) (hfresh : d.Fresh)
      (h : d.ensureTransactionClosed = some doc) : Reachable (.ofDoc doc)
  | rollback {d : AutoCommit M} (hd : Reachable d) : Reachable d.rollback
  | setActor {doc : Automerge M} (actor : A) (hd : Reachable (.ofDoc doc)) :
      Reachable (.ofDoc (doc.setActor actor))
  | apply {doc doc' : Automerge M} {changes : List (Change H A P)}
      (source : Change H A P → AutoCommit M) (hd : Reachable (.ofDoc doc))
      (hsource : ∀ c ∈ changes, Reachable (source c))
      (hmem : ∀ c ∈ changes, c ∈ (source c).doc.changeGraph.changes ∨ c ∈ (source c).doc.queue)
      (h : doc.applyChanges changes = .ok doc' ∨ ∃ e, doc.applyChanges changes = .error e doc') :
      Reachable (.ofDoc doc')
  | load {doc doc' : Automerge M} (actor : A) (hd : Reachable (.ofDoc doc))
      (h : reconstructDocument M actor doc.changeGraph.changes = some doc') :
      Reachable (.ofDoc doc')
  | relog {d : AutoCommit M} (log : PatchLog A) (hd : Reachable d) :
      Reachable { d with patchLog := log }

theorem Reachable.closed {doc : Automerge M} (h : Reachable (.ofDoc doc)) (log : PatchLog A) :
    Reachable (.closed doc log) := .relog log h

theorem Reachable.ofDoc {doc : Automerge M} {log : PatchLog A} (h : Reachable (.closed doc log)) :
    Reachable (.ofDoc doc) := .relog .inactive h

/-! ## Local changes -/

namespace Automerge

variable {doc : Automerge M}

omit [LinearOrder A] in
theorem mem_getHeads (h : doc.WF) {x : H} : x ∈ doc.getHeads ↔
    x ∈ doc.applied ∧ ∀ c ∈ doc.changeGraph.changes, x ∉ c.deps := by
  rw [getHeads, Finset.mem_sort, h.deps_eq, h.graph.mem_heads]
  rfl

omit [LinearOrder A] in
/-- The heads are the heads of the applied set in the causal order. -/
theorem getHeads_eq_heads (h : doc.WF) :
    {x | x ∈ doc.getHeads} = Causal.Heads (Dep A P) doc.applied := by
  ext x
  rw [Set.mem_ofPred_eq, mem_getHeads h]
  refine and_congr_right fun _ => ⟨fun hall b hb hdep => ?_, fun hall c hc hx => ?_⟩
  · obtain ⟨c, rfl, hx⟩ := hdep
    exact hall c (ChangeGraph.hash_mem_hashes.mp hb) hx
  · exact hall c.hash (ChangeGraph.hash_mem_hashes.mpr hc) (dep_hash.mpr hx)

omit [LinearOrder A] in
/-- Equal applied sets have equal heads, and conversely. -/
theorem getHeads_eq_iff {doc' : Automerge M} (h : doc.WF) (h' : doc'.WF) :
    doc.getHeads = doc'.getHeads ↔ doc.applied = doc'.applied := by
  constructor
  · intro heq
    refine Causal.eq_of_heads_eq dep_wellFounded doc.applied_finite doc'.applied_finite
      h.closed h'.closed ?_
    rw [← getHeads_eq_heads h, ← getHeads_eq_heads h', heq]
  · intro heq
    have hset : doc.deps = doc'.deps := by
      ext x
      rw [← Finset.mem_sort (· ≤ ·), ← Finset.mem_sort (s := doc'.deps) (· ≤ ·)]
      have h1 := Set.ext_iff.mp (getHeads_eq_heads h) x
      have h2 := Set.ext_iff.mp (getHeads_eq_heads h') x
      rw [heq] at h1
      exact h1.trans h2.symm
    rw [getHeads, getHeads, hset]

omit [LinearOrder A] in
/-- The actor's previous change is where `transaction_args` looks for it. -/
theorem getHashForActorSeq_spec (h : doc.WF) (actor : A)
    (hseq : 0 < doc.changeGraph.seqForActor actor) :
    ∃ c ∈ doc.changeGraph.changes, c.actor = actor ∧ c.seq = doc.changeGraph.seqForActor actor ∧
      doc.changeGraph.getHashForActorSeq actor (doc.changeGraph.seqForActor actor) = some c.hash := by
  obtain ⟨c, hc, ha, hs⟩ := h.graph.indexed.exists_seq hseq le_rfl
  obtain ⟨i, nd, hnd, rfl⟩ := ChangeGraph.mem_changes hc
  refine ⟨_, hc, ha, hs, ?_⟩
  have hidx := h.graph.indexed.get_seqIndex hnd
  rw [ha, hs] at hidx
  simp [ChangeGraph.getHashForActorSeq, hidx, ChangeGraph.hashes_getElem?, hnd]

omit [LinearOrder A] in
/-- `transaction_args` never panics on a well-formed document; it numbers the
change next in line and makes it depend on heads and own previous change only. -/
theorem transactionArgs_spec (h : doc.WF) : ∃ tx, doc.transactionArgs = some tx ∧
    tx.seq = doc.changeGraph.seqForActor doc.actor + 1 ∧ tx.startOp = doc.maxOp + 1 ∧
    (∀ x ∈ doc.getHeads, x ∈ tx.deps) ∧ (∀ x ∈ tx.deps, x ∈ doc.applied) ∧
    (1 < tx.seq → ∃ c : Change H A P, c.hash ∈ tx.deps ∧ c.actor = doc.actor ∧ c.seq + 1 = tx.seq) := by
  have hheads : ∀ x ∈ doc.getHeads, x ∈ doc.applied := fun x hx => ((mem_getHeads h).mp hx).1
  unfold transactionArgs
  by_cases hseq : 1 < doc.changeGraph.seqForActor doc.actor + 1
  · obtain ⟨c, hc, ha, hs, hget⟩ := getHashForActorSeq_spec h doc.actor (by omega)
    have hcapp : c.hash ∈ doc.applied := ChangeGraph.hash_mem_hashes.mpr hc
    simp only [hseq, if_true, Nat.add_sub_cancel, hget, Option.bind_eq_bind, Option.bind_some]
    refine ⟨_, rfl, rfl, rfl, ?_, ?_, fun _ => ⟨c, ?_, ha, by rw [hs]⟩⟩
    · intro x hx
      by_cases hcon : doc.getHeads.contains c.hash = true
      · simpa only [if_pos hcon] using hx
      · simp only [if_neg hcon]
        exact List.mem_append_left _ hx
    · intro x hx
      by_cases hcon : doc.getHeads.contains c.hash = true
      · simp only [if_pos hcon] at hx
        exact hheads x hx
      · simp only [if_neg hcon, List.mem_append, List.mem_singleton] at hx
        rcases hx with hx | rfl
        · exact hheads x hx
        · exact hcapp
    · by_cases hcon : doc.getHeads.contains c.hash = true
      · simp only [if_pos hcon]
        simpa using hcon
      · simp only [if_neg hcon]
        simp
  · simp only [if_neg hseq, Option.bind_eq_bind, Option.bind_some]
    exact ⟨_, rfl, rfl, rfl, fun x hx => hx, hheads, fun h1 => absurd h1 hseq⟩

omit [LinearOrder A] in
/-- `transaction_args` reads the history, not the op set. -/
theorem transactionArgs_ops (doc : Automerge M) (ops : M.State) :
    ({ doc with ops := ops } : Automerge M).transactionArgs =
      doc.transactionArgs.map fun tx => { tx with checkpoint := ops } := by
  unfold transactionArgs
  by_cases hseq : 1 < doc.changeGraph.seqForActor doc.actor + 1
  · simp only [hseq, if_true, getHeads]
    rcases doc.changeGraph.getHashForActorSeq doc.actor
      (doc.changeGraph.seqForActor doc.actor + 1 - 1) with _ | x <;> simp
  · simp [hseq, getHeads]

omit [LinearOrder A] in
theorem pending_transactionArgs {tx : Transaction M} (h : doc.transactionArgs = some tx) :
    tx.pending = [] ∧ tx.checkpoint = doc.ops := by
  unfold transactionArgs at h
  simp only [Option.bind_eq_bind] at h
  split at h
  · simp only [Option.bind_eq_some_iff, Option.some.injEq] at h
    obtain ⟨_, -, _, -, rfl⟩ := h
    exact ⟨rfl, rfl⟩
  · cases h
    exact ⟨rfl, rfl⟩

/-- The change an open transaction would commit can be committed. -/
structure Committable (doc : Automerge M) (c : Change H A P) : Prop where
  honest : c.Honest
  next : doc.changeGraph.seqForActor c.actor + 1 = c.seq
  deps : ∀ d ∈ c.deps, d ∈ doc.applied
  heads : ∀ x ∈ doc.getHeads, x ∈ c.deps

omit [LinearOrder A] in
theorem Committable.not_applied (h : doc.WF) {c : Change H A P} (hc : doc.Committable c) :
    c.hash ∉ doc.applied := by
  intro hmem
  have := (h.graph.indexed.seq_le (ChangeGraph.hash_mem_hashes.mp hmem)).2
  have := hc.next
  omega

/-- Committing a committable change: it joins the history and becomes the only head. -/
theorem Committable.updateHistory (h : doc.WF) {c : Change H A P} (hc : doc.Committable c)
    (hheld : c.hash ∉ doc.held) : ∃ doc', doc.updateHistory c = some doc' ∧ doc'.WF ∧
      doc'.changeGraph.changes = doc.changeGraph.changes ++ [c] ∧ doc'.queue = doc.queue ∧
      doc'.actor = doc.actor ∧ doc'.ops = doc.ops := by
  have hnew := hc.not_applied h
  obtain ⟨g', hg'⟩ := addChange_isSome hnew hc.deps hc.next
  have h₁ : doc.updateHistory c = some { doc with
      maxOp := max doc.maxOp c.maxOp
      deps := ChangeGraph.updateHeads doc.deps c
      changeGraph := g' } := by
    simp [Automerge.updateHistory, hg']
  obtain ⟨hg, hd, hch, hq, ha, ho, _⟩ := updateHistory_spec h.graph h.deps_eq hnew h₁
  refine ⟨_, h₁, ⟨hg, hd, h.queue_nodup, ?_, ?_⟩, hch, hq, ha, ho⟩
  · intro q hqm hmem
    rw [applied_eq_hashesOf, hch, hashesOf_append] at hmem
    rcases hmem with hmem | ⟨b, hb, he⟩
    · exact h.queue_new q hqm (applied_eq_hashesOf doc ▸ hmem)
    · rw [List.mem_singleton] at hb
      exact hheld ⟨q, hqm, by rw [← he, hb]⟩
  · rintro b (hb | hb)
    · rcases List.mem_append.mp (hch ▸ hb) with hb | hb
      · exact h.honest b (Or.inl hb)
      · rw [List.mem_singleton] at hb
        exact hb ▸ hc.honest
    · exact h.honest b (Or.inr hb)

end Automerge

namespace AutoCommit

@[simp] theorem ensureTransactionClosed_ofDoc (doc : Automerge M) :
    (ofDoc doc).ensureTransactionClosed = some doc := rfl

@[simp] theorem ensureTransactionClosed_closed (doc : Automerge M) (log : PatchLog A) :
    (closed doc log).ensureTransactionClosed = some doc := rfl

omit [LinearOrder H] [LinearOrder A] [ChangeHash H A P] in
@[simp] theorem closed_doc (doc : Automerge M) (log : PatchLog A) : (closed doc log).doc = doc := rfl

omit [LinearOrder H] [LinearOrder A] [ChangeHash H A P] in
@[simp] theorem closed_patchLog (doc : Automerge M) (log : PatchLog A) :
    (closed doc log).patchLog = log := rfl

/-- The transaction that was open, or a new one. -/
theorem ensureTransactionOpen_cases {d : AutoCommit M} {tx : Transaction M} {log : PatchLog A}
    (h : d.ensureTransactionOpen = some (tx, log)) :
    (d.transaction = some tx ∧ log = d.patchLog) ∨
      (d.transaction = none ∧ d.doc.transactionArgs = some tx ∧
        d.patchLog.migrateActors (insert d.doc.actor d.doc.actors) = some log) := by
  unfold ensureTransactionOpen at h
  cases ht : d.transaction with
  | some tx' =>
    rw [ht] at h
    cases h
    exact Or.inl ⟨rfl, rfl⟩
  | none =>
    rw [ht] at h
    simp only [Option.bind_eq_bind, Option.bind_eq_some_iff, Option.some.injEq,
      Prod.mk.injEq] at h
    obtain ⟨tx', htx, log', hlog, rfl, rfl⟩ := h
    exact Or.inr ⟨rfl, htx, hlog⟩

/-- The open transaction is the one `transaction_args` would open now. -/
def TransactionOk (d : AutoCommit M) : Prop :=
  ∀ tx, d.transaction = some tx → ∃ args, d.doc.transactionArgs = some args ∧
    tx.seq = args.seq ∧ tx.startOp = args.startOp ∧ tx.deps = args.deps

omit [LinearOrder A] in
theorem committable_of_pendingChange {d : AutoCommit M} (h : d.doc.WF) (htx : d.TransactionOk)
    {c : Change H A P} (hc : d.pendingChange = some c) : d.doc.Committable c := by
  unfold pendingChange at hc
  rcases hopen : d.transaction with _ | tx
  · simp [hopen] at hc
  · simp only [hopen] at hc
    split at hc
    · cases hc
    · obtain rfl : tx.export d.doc.actor = c := by simpa using hc
      obtain ⟨args, hargs, hseq, _, hdeps⟩ := htx tx hopen
      obtain ⟨args', hargs', hseq', _, hheads, happ, hprev⟩ :=
        Automerge.transactionArgs_spec h
      rw [hargs, Option.some.injEq] at hargs'
      subst hargs'
      have hmem : ∀ x, x ∈ (tx.export d.doc.actor).deps ↔ x ∈ args.deps := by
        intro x
        simp [Transaction.export, List.mem_mergeSort, hdeps]
      have hs : (tx.export d.doc.actor).seq = args.seq := hseq
      refine ⟨⟨by rw [hs, hseq']; omega, fun h1 => ?_⟩, ?_, ?_, ?_⟩
      · obtain ⟨b, hb, ha, hbs⟩ := hprev (hs ▸ h1)
        exact ⟨b, (hmem _).mpr hb, ha, by rw [hbs, hs]⟩
      · rw [hs, hseq']
        rfl
      · exact fun x hx => happ x ((hmem x).mp hx)
      · exact fun x hx => (hmem x).mpr (hheads x hx)

omit [LinearOrder A] in
theorem fresh_of_settled {d : AutoCommit M} (h : d.doc.WF) (htx : d.TransactionOk)
    (hs : d.doc.Settled) : d.Fresh := by
  rintro c hc ⟨q, hq, he⟩
  obtain rfl : q = c := Change.hash_inj he
  obtain ⟨x, hx, hxn⟩ := hs q hq
  exact hxn ((committable_of_pendingChange h htx hc).deps x hx)

/-- **Closing a transaction** adds its change, if it has one, to the history. -/
theorem ensureTransactionClosed_spec {d : AutoCommit M} (h : d.doc.WF) (htx : d.TransactionOk)
    (hfresh : d.Fresh) : ∃ doc, d.ensureTransactionClosed = some doc ∧ doc.WF ∧
      doc.changeGraph.changes = d.doc.changeGraph.changes ++ d.pendingChange.toList ∧
      doc.queue = d.doc.queue ∧ doc.actor = d.doc.actor ∧ doc.ops = d.doc.ops := by
  unfold ensureTransactionClosed
  rcases hp : d.pendingChange with _ | c
  · exact ⟨d.doc, rfl, h, by simp, rfl, rfl, rfl⟩
  · obtain ⟨doc, hdoc, hwf, hch, hrest⟩ :=
      (committable_of_pendingChange h htx hp).updateHistory h (hfresh c hp)
    exact ⟨doc, hdoc, hwf, by simpa using hch, hrest⟩

end AutoCommit

/-! ## Loading a saved document -/

theorem reconstructGraph_wf : ∀ (changes : List (Change H A P)) (g g' : ChangeGraph H A P),
    g.WF → changes.foldlM (fun g c => if g.hasChange c.hash then none else g.addChange c) g =
      some g' → g'.WF ∧ g'.changes = g.changes ++ changes
  | [], g, g', hg, h => by
    simp only [List.foldlM_nil, Option.pure_def, Option.some.injEq] at h
    subst h
    exact ⟨hg, by simp⟩
  | c :: changes, g, g', hg, h => by
    rw [List.foldlM_cons, Option.bind_eq_bind, Option.bind_eq_some_iff] at h
    obtain ⟨g₁, h₁, h⟩ := h
    split at h₁
    · cases h₁
    · rename_i hnew
      rcases hg.addChange_cases h₁ with ⟨hmem, _⟩ | ⟨_, _, _, cache, rfl, hwf⟩
      · exact absurd (ChangeGraph.hasChange_iff.mpr hmem) hnew
      · obtain ⟨hwf', hch⟩ := reconstructGraph_wf changes _ g' hwf h
        refine ⟨hwf', ?_⟩
        rw [hch, show ((g.pushNode c).withCache cache).changes = (g.pushNode c).changes from rfl,
          ChangeGraph.pushNode_changes]
        simp

theorem reconstructDocument_spec {actor : A} {changes : List (Change H A P)} {doc : Automerge M}
    (hh : ∀ c ∈ changes, c.Honest) (h : reconstructDocument M actor changes = some doc) :
    doc.WF ∧ doc.changeGraph.changes = changes ∧ doc.queue = [] ∧ doc.actor = actor ∧
      doc.ops = M.reconstruct changes := by
  simp only [reconstructDocument, Option.bind_eq_bind, Option.bind_eq_some_iff,
    Option.some.injEq] at h
  obtain ⟨g, hg, rfl⟩ := h
  obtain ⟨hwf, hch⟩ := reconstructGraph_wf changes _ g ChangeGraph.wf_new hg
  have hch' : g.changes = changes := hch
  refine ⟨⟨hwf, rfl, List.nodup_nil, by simp, ?_⟩, hch', rfl, rfl, rfl⟩
  rintro c (hc | hc)
  · exact hh c (hch' ▸ hc)
  · cases hc

/-! ## The invariant of all runs -/

/-- **Every reachable document is well formed**, and its open transaction fits it. -/
theorem Reachable.wf {d : AutoCommit M} (h : Reachable d) : d.doc.WF ∧ d.TransactionOk := by
  induction h with
  | create actor => exact ⟨Automerge.wf_new actor, fun tx h => by cases h⟩
  | @edit d d' cmd _ h ih =>
    obtain ⟨hwf, htx⟩ := ih
    simp only [AutoCommit.edit, Option.bind_eq_bind, Option.bind_eq_some_iff] at h
    obtain ⟨⟨tx, log⟩, hopen, h⟩ := h
    -- the transaction that is open or is opened now fits the document
    have hok : ∃ args, d.doc.transactionArgs = some args ∧
        tx.seq = args.seq ∧ tx.startOp = args.startOp ∧ tx.deps = args.deps := by
      rcases AutoCommit.ensureTransactionOpen_cases hopen with ⟨ht, -⟩ | ⟨-, hargs, -⟩
      · exact htx tx ht
      · exact ⟨tx, hargs, rfl, rfl, rfl⟩
    obtain ⟨args, hargs, hfit⟩ := hok
    split at h
    · obtain rfl : _ = d' := by simpa using h
      refine ⟨hwf, fun tx' ht => ?_⟩
      obtain rfl : tx = tx' := by simpa using ht
      exact ⟨args, hargs, hfit⟩
    · rename_i ops new hexec
      obtain rfl : _ = d' := by simpa using h
      refine ⟨⟨hwf.graph, hwf.deps_eq, hwf.queue_nodup, hwf.queue_new, hwf.honest⟩,
        fun tx' ht => ?_⟩
      simp only [Option.some.injEq] at ht
      refine ⟨{ args with checkpoint := ops }, ?_, ht ▸ hfit⟩
      rw [Automerge.transactionArgs_ops, hargs, Option.map_some]
  | @commit d doc _ hfresh h ih =>
    obtain ⟨doc', hdoc', hwf, _⟩ := AutoCommit.ensureTransactionClosed_spec ih.1 ih.2 hfresh
    rw [h, Option.some.injEq] at hdoc'
    subst hdoc'
    exact ⟨hwf, fun tx ht => by cases ht⟩
  | @rollback d _ ih =>
    unfold AutoCommit.rollback
    split
    · exact ih
    · obtain ⟨hwf, _⟩ := ih
      exact ⟨⟨hwf.graph, hwf.deps_eq, hwf.queue_nodup, hwf.queue_new, hwf.honest⟩,
        fun tx ht => by cases ht⟩
  | setActor actor _ ih =>
    obtain ⟨hwf, _⟩ := ih
    exact ⟨⟨hwf.graph, hwf.deps_eq, hwf.queue_nodup, hwf.queue_new, hwf.honest⟩,
      fun tx ht => by cases ht⟩
  | apply source _ _ hmem h ih ihs =>
    refine ⟨?_, fun tx ht => by cases ht⟩
    have hh := fun c hc => (ihs c hc).1.honest c (hmem c hc)
    rcases h with h | ⟨e, h⟩
    · obtain ⟨chap, hext, _⟩ := Automerge.applyChanges_ok ih.1 hh h
      exact hext.wf
    · obtain ⟨chap, hext⟩ := Automerge.applyChanges_error ih.1 hh h
      exact hext.wf
  | load actor _ h ih =>
    exact ⟨(reconstructDocument_spec (fun c hc => ih.1.honest c (Or.inl hc)) h).1,
      fun tx ht => by cases ht⟩
  | relog log _ ih => exact ih

/-- A commit opens a transaction first, and is otherwise like any closing. -/
theorem Reachable.commitWith {d d' : AutoCommit M} (hd : Reachable d) (hfresh : d.Fresh)
    (h : d.commitWith = some d') : Reachable d' := by
  simp only [AutoCommit.commitWith, Option.bind_eq_bind, Option.bind_eq_some_iff,
    Option.some.injEq] at h
  obtain ⟨⟨tx, log⟩, hopen, doc, hclosed, rfl⟩ := h
  refine Reachable.closed ?_ log
  rcases AutoCommit.ensureTransactionOpen_cases hopen with ⟨ht, -⟩ | ⟨ht, hargs, -⟩
  · refine .commit hd hfresh (hclosed ▸ ?_)
    rw [← ht]
  · -- a transaction that was opened just now commits nothing
    have hnew := Automerge.pending_transactionArgs hargs
    refine .commit hd hfresh ?_
    simp only [AutoCommit.ensureTransactionClosed, AutoCommit.pendingChange, ht, hnew] at hclosed ⊢
    exact hclosed

/-! ## The patch log -/

namespace AutoCommit

variable {d : AutoCommit M} {doc : Automerge M}

omit [LinearOrder A] [ChangeHash H A P] in
theorem pendingChange_actor {c : Change H A P} (h : d.pendingChange = some c) :
    c.actor = d.doc.actor := by
  unfold pendingChange at h
  split at h
  · cases h
  · split at h
    · cases h
    · rw [← Option.some.inj h]
      rfl

/-- The patch log has no actor whose first transaction came to nothing. -/
def LogFits (d : AutoCommit M) : Prop := ∀ a ∈ d.patchLog.actors, ∃ c ∈ d.changes, c.actor = a

omit [LinearOrder A] [ChangeHash H A P] in
theorem logFits_ofDoc (doc : Automerge M) : (ofDoc doc).LogFits :=
  fun a ha => absurd ha (Finset.notMem_empty a)

theorem LogFits.subset (h : d.LogFits) (hwf : doc.WF)
    (hch : doc.changeGraph.changes = d.changes) : d.patchLog.actors ⊆ doc.actors := fun a ha =>
  (Automerge.mem_actors hwf.graph).mpr (hch ▸ h a ha)

/-- An edit that issues operations keeps the log fitting: its actor will have a change. -/
theorem LogFits.edit {d' : AutoCommit M} {cmd : M.Cmd} (hr : Reachable d) (hfit : d.LogFits)
    (h : d.edit cmd = some d') (hpending : d'.pendingChange ≠ none) : d'.LogFits := by
  simp only [AutoCommit.edit, Option.bind_eq_bind, Option.bind_eq_some_iff] at h
  obtain ⟨⟨tx, log⟩, hopen, h⟩ := h
  obtain ⟨c, hc⟩ := Option.ne_none_iff_exists'.mp hpending
  -- the document, its actor and its history stay
  obtain ⟨hgraph, hactor, hlog⟩ : d'.doc.changeGraph = d.doc.changeGraph ∧
      d'.doc.actor = d.doc.actor ∧ d'.patchLog = log := by
    split at h <;> (obtain rfl : _ = d' := by simpa using h) <;> exact ⟨rfl, rfl, rfl⟩
  have hown : c.actor = d.doc.actor := (pendingChange_actor hc).trans hactor
  have hmem : ∀ b ∈ d'.doc.changeGraph.changes, b ∈ d'.changes := fun b hb =>
    List.mem_append_left _ hb
  have hcmem : c ∈ d'.changes := List.mem_append_right _ (by rw [hc]; exact List.mem_singleton_self c)
  intro a ha
  rw [hlog] at ha
  have hold : ∀ b ∈ d.changes, b.actor = a → ∃ c ∈ d'.changes, c.actor = a := by
    intro b hb hab
    rcases List.mem_append.mp hb with hb | hb
    · exact ⟨b, hmem b (hgraph ▸ hb), hab⟩
    · exact ⟨c, hcmem, hown.trans ((pendingChange_actor (Option.mem_toList.mp hb)).symm.trans hab)⟩
  rcases ensureTransactionOpen_cases hopen with ⟨-, hsame⟩ | ⟨-, -, hmigrate⟩
  · obtain ⟨b, hb, hab⟩ := hfit a (hsame ▸ ha)
    exact hold b hb hab
  · obtain ⟨-, rfl⟩ := PatchLog.migrateActors_eq_some.mp hmigrate
    rcases Finset.mem_union.mp ha with ha | ha
    · obtain ⟨b, hb, hab⟩ := hfit a ha
      exact hold b hb hab
    · rcases Finset.mem_insert.mp ha with rfl | ha
      · exact ⟨c, hcmem, hown⟩
      · obtain ⟨b, hb, hab⟩ := (Automerge.mem_actors hr.wf.1.graph).mp ha
        exact ⟨b, hmem b (hgraph ▸ hb), hab⟩

end AutoCommit

end AutomergeR
