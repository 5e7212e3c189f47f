import AutomergeR.MalformedMessages
import AutomergeR.SyncLogs

/-! # What `am_sync` guarantees

Between documents that hold nothing back and whose patch logs are ready (`LogReady`)
`am_sync` ends, with both documents holding the union of what they had (`amSync_converges`).
-/

namespace AutomergeR

open Automerge

variable {H A P : Type} [LinearOrder H] [LinearOrder A] [ChangeHash H A P]
  {M : OpSetModel H A P} {fmt : ChunkFormat H A P} {B : BloomScheme H}

/-! ## Open transactions -/

theorem encode_of_closed {d : AutoCommit M} {doc : Automerge M} (st : SyncState B)
    (h : d.ensureTransactionClosed = some doc) :
    Peer.encode fmt ⟨d, st⟩ = Peer.encode fmt ⟨.closed doc d.patchLog, st⟩ := by
  simp [Peer.encode, h]

/-- `am_sync` commits what is uncommitted before it does anything else. -/
theorem amSync_of_closed {d₁ d₂ : AutoCommit M} {doc₁ doc₂ : Automerge M}
    (h₁ : d₁.ensureTransactionClosed = some doc₁) (h₂ : d₂.ensureTransactionClosed = some doc₂)
    (rounds : ℕ) : amSync fmt B (rounds + 1) d₁ d₂ =
      syncLoop fmt (rounds + 1) ⟨.closed doc₁ d₁.patchLog, .new B⟩
        ⟨.closed doc₂ d₂.patchLog, .new B⟩ := by
  rw [amSync, syncLoop, syncLoop, syncRound, syncRound, encode_of_closed _ h₁,
    encode_of_closed _ h₂]

/-- A closed transaction's document has the changes of the open one. -/
theorem exists_closed {d : AutoCommit M} (h : Reachable d) (hfresh : d.Fresh) :
    ∃ doc, d.ensureTransactionClosed = some doc ∧ doc.WF ∧
      doc.changeGraph.changes = d.changes ∧ doc.queue = d.doc.queue ∧
      doc.applied = hashesOf d.changes := by
  obtain ⟨doc, hdoc, hwf, hch, hq, _, _⟩ :=
    AutoCommit.ensureTransactionClosed_spec h.wf.1 h.wf.2 hfresh
  exact ⟨doc, hdoc, hwf, hch, hq, by rw [applied_eq_hashesOf, hch]; rfl⟩

omit [LinearOrder A] in
theorem AutoCommit.fresh_of_queue_nil {d : AutoCommit M} (hq : d.doc.queue = []) : d.Fresh := by
  rintro c _ ⟨q, hqm, _⟩
  rw [hq] at hqm
  cases hqm

omit [LinearOrder H] [LinearOrder A] in
theorem mem_changes_iff {doc : Automerge M} {c : Change H A P} :
    c ∈ doc.changeGraph.changes ↔ c.hash ∈ doc.applied :=
  ChangeGraph.hash_mem_hashes.symm

/-! ## Documents that hold nothing back -/

omit [LinearOrder H] [LinearOrder A] in
theorem Automerge.settled_of_nil {doc : Automerge M} (hq : doc.queue = []) :
    doc.Settled ∧ doc.held = ∅ :=
  ⟨fun c hc => absurd (hq ▸ hc) List.not_mem_nil, by rw [held, hq, hashesOf_nil]⟩

omit [LinearOrder A] in
/-- A clean start is orderly: what either holds back the other has applied. -/
theorem orderly_new {doc₁ doc₂ : Automerge M} (h₁ : doc₁.WF) (h₂ : doc₂.WF)
    (hs₁ : doc₁.Settled) (hs₂ : doc₂.Settled) (hheld₁ : doc₁.held ⊆ doc₂.applied)
    (hheld₂ : doc₂.held ⊆ doc₁.applied)
    (hclash : NoClash {c : Change H A P | c.hash ∈ doc₁.known ∪ doc₂.known}) :
    Orderly doc₁ (.new B) doc₂ (.new B) := by
  have hclean : ∀ {doc other : Automerge M}, doc.Settled → doc.held ⊆ other.applied →
      Clean doc (.new B) other := fun hs hheld =>
    ⟨hs, hheld, fun x hx => (List.not_mem_nil hx).elim,
      fun x hx => (Finset.notMem_empty x hx).elim, fun hvs h => (nomatch h)⟩
  have hans : ∀ {doc other : Automerge M}, other.WF → doc.held ⊆ other.applied →
      doc.Answerable other := fun ho hheld c hc d hd =>
    Or.inr (ho.closed (dep_hash.mpr hd) (hheld (mem_hashesOf.mpr hc)))
  exact ⟨talk_new h₁ h₂ (hans h₂ hheld₁) (hans h₁ hheld₂), hclean hs₁ hheld₁, hclean hs₂ hheld₂,
    hclash⟩

/-- Nothing will arrive that `d` does not have, or the actors that only its patch log has come
behind all others. -/
def AutoCommit.LogReady (d other : AutoCommit M) : Prop :=
  (∀ c ∈ other.changes, c ∈ d.changes) ∨
    ∀ a ∈ d.patchLog.actors, (∀ c ∈ d.changes, c.actor ≠ a) →
      ∀ c, c ∈ d.changes ∨ c ∈ other.changes → c.actor ≤ a

omit [ChangeHash H A P] in
theorem AutoCommit.LogFits.ready {d : AutoCommit M} (h : d.LogFits) (other : AutoCommit M) :
    d.LogReady other := Or.inr fun a ha hno => by
  obtain ⟨c, hc, hca⟩ := h a ha
  exact absurd hca (hno c hc)

/-- `am_sync` returns, and both documents have then exactly the union of the changes, nothing held
back, and the same heads. -/
def AutoCommit.Converges (fmt : ChunkFormat H A P) (B : BloomScheme H) (d₁ d₂ : AutoCommit M) :
    Prop :=
  ∃ rounds doc₁ log₁ doc₂ log₂,
    amSync fmt B rounds d₁ d₂ = .returned (.closed doc₁ log₁) (.closed doc₂ log₂) ∧
    (∀ c, c ∈ doc₁.changeGraph.changes ↔ c ∈ d₁.changes ∨ c ∈ d₂.changes) ∧
    (∀ c, c ∈ doc₂.changeGraph.changes ↔ c ∈ d₁.changes ∨ c ∈ d₂.changes) ∧
    doc₁.queue = [] ∧ doc₂.queue = [] ∧ doc₁.getHeads = doc₂.getHeads

theorem AutoCommit.Converges.symm {d₁ d₂ : AutoCommit M} (h : d₁.Converges fmt B d₂) :
    d₂.Converges fmt B d₁ := by
  obtain ⟨rounds, doc₁, log₁, doc₂, log₂, hrun, hall₁, hall₂, hq₁, hq₂, hheads⟩ := h
  refine ⟨rounds, doc₂, log₂, doc₁, log₁, ?_, fun c => (hall₂ c).trans or_comm,
    fun c => (hall₁ c).trans or_comm, hq₂, hq₁, hheads.symm⟩
  have hswap : amSync fmt B rounds d₂ d₁ = (amSync fmt B rounds d₁ d₂).swap := syncLoop_swap rounds ..
  rw [hswap, hrun]
  rfl

/-- A document of `actor` with an uncommitted edit. -/
def editedDoc (actor : ℕ) : AutoCommit (changeLog ByteHash ℕ ℕ) :=
  ⟨.new _ actor, some ⟨1, 1, [], [actor], []⟩, ⟨{actor}⟩⟩

theorem editedDoc_reachable (actor : ℕ) : Reachable (editedDoc actor) := by
  have hargs : (Automerge.new (changeLog ByteHash ℕ ℕ) actor).transactionArgs =
      some ⟨1, 1, [], [], []⟩ := by
    have hheads : (Automerge.new (changeLog ByteHash ℕ ℕ) actor).getHeads = [] :=
      Finset.sort_empty _
    unfold Automerge.transactionArgs
    rw [hheads]
    rfl
  refine .edit (d := .ofDoc (.new _ actor)) [actor] (.create actor) ?_
  have hlog : (insert actor (Automerge.new (changeLog ByteHash ℕ ℕ) actor).actors) = {actor} := rfl
  simp only [AutoCommit.edit, AutoCommit.ensureTransactionOpen, AutoCommit.ofDoc,
    AutoCommit.closed, hargs, Option.bind_eq_bind, Option.bind_some]
  rw [show (Automerge.new (changeLog ByteHash ℕ ℕ) actor).actor = actor from rfl, hlog,
    PatchLog.migrateActors_inactive]
  rfl

theorem editedDoc_changes (actor : ℕ) :
    (editedDoc actor).changes = [⟨actor, 1, 1, [], [actor]⟩] := by
  have hdeps : ([] : List ByteHash).mergeSort (· ≤ ·) = [] := List.mergeSort_nil
  show [] ++ [Transaction.export _ _] = _
  unfold Transaction.export
  rw [hdeps]
  rfl

theorem logFits_edited (actor : ℕ) : (editedDoc actor).LogFits := by
  intro a ha
  refine ⟨⟨actor, 1, 1, [], [actor]⟩, ?_, (Finset.mem_singleton.mp ha).symm⟩
  rw [editedDoc_changes]
  exact List.mem_singleton_self _

theorem noClash_edited : NoClash {c | c ∈ (editedDoc 1).changes ∨ c ∈ (editedDoc 2).changes} := by
  intro c hc d hd hactor _
  simp only [editedDoc_changes, List.mem_singleton, Set.mem_ofPred_eq] at hc hd
  rcases hc with rfl | rfl <;> rcases hd with rfl | rfl
  · rfl
  · cases hactor
  · cases hactor
  · rfl

/-- What an edited document is committed to. -/
theorem editedDoc_closed (actor : ℕ) : ∃ doc, (editedDoc actor).ensureTransactionClosed = some doc ∧
    Reachable (.ofDoc doc) ∧ doc.queue = [] ∧
      doc.changeGraph.changes = [⟨actor, 1, 1, [], [actor]⟩] := by
  have hfresh : (editedDoc actor).Fresh := AutoCommit.fresh_of_queue_nil rfl
  obtain ⟨doc, hdoc, -, hch, hq, -⟩ := exists_closed (editedDoc_reachable actor) hfresh
  exact ⟨doc, hdoc, (editedDoc_reachable actor).commit hfresh hdoc, hq,
    hch.trans (editedDoc_changes actor)⟩

/-- An edit on top of a document, before it is committed. -/
theorem exists_uncommitted {doc : Automerge (changeLog ByteHash ℕ ℕ)}
    (h : Reachable (.ofDoc doc)) (n : ℕ) : ∃ tx : Transaction (changeLog ByteHash ℕ ℕ),
      tx.seq = doc.changeGraph.seqForActor doc.actor + 1 ∧
      Reachable ⟨doc, some { tx with pending := [n] }, ⟨insert doc.actor doc.actors⟩⟩ := by
  obtain ⟨tx, htx, hseq, -⟩ := transactionArgs_spec h.wf.1
  have htx : doc.transactionArgs = some tx := htx
  refine ⟨tx, hseq, .edit [n] h ?_⟩
  simp only [AutoCommit.edit, AutoCommit.ensureTransactionOpen, AutoCommit.ofDoc,
    AutoCommit.closed, htx, Option.bind_eq_bind, Option.bind_some,
    PatchLog.migrateActors_inactive, (pending_transactionArgs htx).1]
  rfl

/-- One more edit on top of a document. -/
theorem exists_edited {doc : Automerge (changeLog ByteHash ℕ ℕ)} (h : Reachable (.ofDoc doc))
    (hq : doc.queue = []) (n : ℕ) :
    ∃ (doc' : Automerge (changeLog ByteHash ℕ ℕ)) (c : Change ByteHash ℕ ℕ),
      Reachable (.ofDoc doc') ∧ doc'.queue = [] ∧
      doc'.changeGraph.changes = doc.changeGraph.changes ++ [c] ∧ c.actor = doc.actor ∧
      c.seq = doc.changeGraph.seqForActor doc.actor + 1 ∧ c.ops = [n] ∧
      (∀ x, x ∈ c.deps → x ∈ doc.applied) ∧ ∀ x ∈ doc.getHeads, x ∈ c.deps := by
  obtain ⟨tx, hseq, hr⟩ := exists_uncommitted h n
  have hfresh := AutoCommit.fresh_of_queue_nil (d := ⟨doc, some { tx with pending := [n] },
    ⟨insert doc.actor doc.actors⟩⟩) hq
  obtain ⟨doc', hclosed, -, hch, hq', -⟩ := exists_closed hr hfresh
  have hc := AutoCommit.committable_of_pendingChange hr.wf.1 hr.wf.2 rfl
  exact ⟨doc', _, hr.commit hfresh hclosed, hq'.trans hq, hch, rfl, hseq, rfl, hc.deps, hc.heads⟩

end AutomergeR
