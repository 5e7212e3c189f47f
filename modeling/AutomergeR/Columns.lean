import AutomergeR.ChangeLog
import AutomergeR.SameReads

/-! # The columns under a document

The op set of a document is the one in columns: local commands are the calls of the package,
changes are applied as a batch. In whatever order calls and batches come, the columns record
the log of the changes (`Recorded`), so what is read depends on this log alone.
-/

namespace AutomergeR

variable {H A : Type} [LinearOrder A]

/-- The op set in columns. An application of changes that is broken off would abort; it does
not come to that (`Recorded.applyBatch`). Loading and the limit of the encoder are left open. -/
def columns (reconstruct : List (Change H A (Op A)) → OpSet A) (vecEncoderMax : ℕ) :
    OpSetModel H A (Op A) where
  State := OpSet A
  Cmd := Tx.Call A
  new := OpSet.new
  applyChanges s cs := (s.applyBatch (cs.flatMap Change.identified)).getD s
  reconstruct := reconstruct
  exec s actor ctr c :=
    let tx := Tx.call ⟨s, actor, ctr, []⟩ c
    some (tx.ops, tx.pending)
  vecEncoderMax := vecEncoderMax

/-- The op set records the log, with all details and a right index where increments are made
to counters of maps only. -/
structure Recorded (s : OpSet A) (S : Log A) : Prop where
  represents : Represents s S
  detailed : S.Plain → Detailed s S
  indexed : S.Plain → ∀ obj t, s.objectType obj = some t → Tx.RowsIndexed obj t (s.rows obj)

theorem recorded_new : Recorded (OpSet.new : OpSet A) ∅ where
  represents := represents_new
  detailed _ := detailed_new
  indexed _ obj t _ := Tx.rowsIndexed_invariant.nil obj t

namespace Recorded

variable {s s' : OpSet A} {S : Log A} (h : Recorded s S) (hS : S.WF)

include h hS

/-! ## Local commands -/

section

variable (actor : A) {ctr : ℕ} (hlt : ∀ p ∈ S, p.1.counter < ctr)

include hlt

/-- A transaction is opened on what is recorded. -/
theorem logged : (⟨s, actor, ctr, []⟩ : Tx A).Logged S := by
  have hlog : (⟨s, actor, ctr, []⟩ : Tx A).log S = S := by
    unfold Tx.log
    refine Set.union_eq_self_of_subset_right ?_
    rintro p ⟨i, hi, -⟩
    cases hi
  exact ⟨hlog.symm ▸ hS, hlog.symm ▸ hlt, hlog.symm ▸ h.represents, hlog.symm ▸ h.detailed⟩

theorem keeps (hplain : S.Plain) : (⟨s, actor, ctr, []⟩ : Tx A).Keeps Tx.RowsIndexed where
  toFresh := (h.logged hS actor hlt).fresh
  kept := h.indexed hplain

/-- **A call** adds its operations to the log, whether it returns or raises an error. -/
theorem call (c : Tx.Call A) :
    (S ∪ {p | p ∈ issued ctr actor (Tx.call ⟨s, actor, ctr, []⟩ c).pending}).WF ∧
      Recorded (Tx.call ⟨s, actor, ctr, []⟩ c).ops
        (S ∪ {p | p ∈ issued ctr actor (Tx.call ⟨s, actor, ctr, []⟩ c).pending}) ∧
      ∀ p ∈ S ∪ {p | p ∈ issued ctr actor (Tx.call ⟨s, actor, ctr, []⟩ c).pending},
        p.1.counter < ctr + (Tx.call ⟨s, actor, ctr, []⟩ c).pending.length := by
  have hadv := Tx.advances_call (h.logged hS actor hlt) c
  have hkeeps := fun hplain => Tx.keeps_call Tx.rowsIndexed_invariant
    (h.keeps hS actor hlt hplain) c
  generalize Tx.call ⟨s, actor, ctr, []⟩ c = tx at hadv hkeeps ⊢
  have hlog : S ∪ {p | p ∈ issued ctr actor tx.pending} = tx.log S := by
    unfold Tx.log Tx.opened
    rw [hadv.startOp, hadv.actor]
    congr 1
    exact Set.ext fun p => mem_issued
  rw [hlog]
  refine ⟨hadv.logged.wf, ⟨hadv.logged.represents, hadv.logged.detailed, fun hplain => ?_⟩,
    fun p hp => ?_⟩
  · exact (hkeeps (hplain.mono (hlog ▸ Set.subset_union_left))).kept
  · have hbelow := hadv.logged.below p hp
    unfold Tx.nextId at hbelow
    rw [hadv.startOp] at hbelow
    exact hbelow

end

/-! ## Changes of other documents -/

variable {batch : List (OpId A × Op A)} (hb : S.Brings batch)

include hb

theorem fits {actor : A} {ctr : ℕ} (hplain : (S.extend batch).Plain) :
    (⟨s, actor, ctr, []⟩ : Tx A).Fits batch where
  nodup := hb.nodup
  empty p hp := by
    refine List.eq_nil_iff_forall_not_mem.mpr fun r hr => ?_
    obtain ⟨q, hq, hobj, -, -⟩ := h.represents.row _ r hr
    obtain ⟨t, ht, -⟩ := (hS.rooted q hq).typed
    rw [hobj] at ht
    obtain ⟨op, hop, -⟩ := ht
    exact hb.fresh p hp _ hop rfl
  ids p hp obj r hr heq := by
    obtain ⟨q, hq, -, -, hrec⟩ := h.represents.row obj r hr
    exact hb.fresh p hp q hq (hrec.id.symm.trans heq)
  objects p hp q hq heq := by
    obtain ⟨op, hop, -⟩ := (h.represents.made q.1 q.2).mp hq
    exact hb.fresh p hp _ hop heq
  older p hp := (hb.rooted p hp).older
  list p hp ht := by
    have hmade := (objectType_withMade_iff h.represents hS hb).mp ht
    have hsuits : p.2.SuitsSeq .list := (hb.wf hS).suits (Or.inr hp) hmade
    cases hins : p.2.insert with
    | true =>
      have hset : p.2.action.isSetOrMake = true := by
        rcases hsuits.insertion hins with hset | ⟨heq, -⟩
        · exact hset
        · cases heq
      refine ⟨hsuits.key, ?_, fun _ => hset⟩
      cases hact : p.2.action <;> rw [hact] at hset <;> first | rfl | cases hset
    | false => exact ⟨hsuits.key, (hsuits.update hins).1, nofun⟩
  map p hp ht := by
    have hmade := (objectType_withMade_iff h.represents hS hb).mp ht
    have hsuits : p.2.SuitsMap := (hb.wf hS).suits (Or.inr hp) hmade
    exact ⟨hsuits.key, hsuits.insert⟩
  counters p hp hinc id hid := by
    have hcounter := (hplain p (Or.inr hp) hinc).2
    refine ⟨fun r hr heq => ?_, fun q hq heq => hcounter q (Or.inr hq) (heq ▸ hid)⟩
    obtain ⟨q, hq, -, -, hrec⟩ := h.represents.row _ r hr
    rw [hrec.action]
    exact hcounter q (Or.inl hq) (hrec.id ▸ heq ▸ hid)

/-- **A batch** is applied to the end, and its operations are added to the log. -/
theorem applyBatch (actor : A) {ctr : ℕ} (hlt : ∀ p ∈ S, p.1.counter < ctr) :
    ∃ s', s.applyBatch batch = some s' ∧ Recorded s' (S.extend batch) := by
  obtain ⟨s', heq⟩ := applyBatch_succeeds h.represents hS hb
  refine ⟨s', heq, represents_applyBatch h.represents hS hb heq, fun hplain => ?_, fun hplain => ?_⟩
  · exact detailed_applyBatch h.represents hS hb heq
      (h.detailed (hplain.mono Log.subset_extend)) hplain
  · have hkeeps := h.keeps hS actor hlt (hplain.mono Log.subset_extend)
    have hmerge : Tx.merge ⟨s, actor, ctr, []⟩ batch = some ⟨s', actor,
        (batch.map fun p => p.1.counter + 1).foldl max ctr, []⟩ := by
      unfold Tx.merge
      rw [heq]
      rfl
    exact (Tx.keeps_merge hkeeps (h.fits hS hb hplain) hmerge).kept

omit h hS hb in
/-- A batch of changes of the history it makes longer. -/
theorem applyChanges [ChangeHash H A (Op A)] {T : Set H} {cs : List (Change H A (Op A))}
    (h : Recorded s (logAt T)) (hd : Deliverable T cs) (hT : History (T ∪ hashesOf cs) A)
    (hS : (logAt T : Log A).WF) (actor : A) {ctr : ℕ}
    (hlt : ∀ p ∈ (logAt T : Log A), p.1.counter < ctr)
    (reconstruct : List (Change H A (Op A)) → OpSet A) (n : ℕ) :
    (s.applyBatch (cs.flatMap Change.identified)).isSome = true ∧
      Recorded ((columns reconstruct n).applyChanges s cs) (logAt (T ∪ hashesOf cs)) := by
  obtain ⟨s', heq, hrec⟩ := h.applyBatch hS (hT.brings hd) actor hlt
  have hext : (logAt T : Log A).extend (cs.flatMap Change.identified) =
      logAt (T ∪ hashesOf cs) := by
    rw [logAt_union, logAt_hashesOf]
    rfl
  rw [hext] at hrec
  have happly : (columns reconstruct n).applyChanges s cs = s' := by
    show (s.applyBatch (cs.flatMap Change.identified)).getD s = s'
    rw [heq]
    rfl
  rw [happly]
  exact ⟨by rw [heq]; rfl, hrec⟩

end Recorded

/-- **Op sets that record the same log read the same.** -/
theorem Recorded.sameReads {s s' : OpSet A} {S : Log A} (h : Recorded s S) (h' : Recorded s' S)
    (hS : S.WF) (hplain : S.Plain) : SameReads s s' := by
  have hlist : ∀ {s : OpSet A}, Recorded s S → ∀ obj, S.MadeAs obj .list → IndexedRows (s.rows obj) :=
    fun h obj ht => h.indexed hplain obj .list ((h.represents.objectType hS).mpr ht)
  exact same_reads hS hplain h.represents h'.represents (h.detailed hplain)
    (h'.detailed hplain) (hlist h) (hlist h')

end AutomergeR
