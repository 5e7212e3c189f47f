import AutomergeR.Sync

/-! # What a sync message says and does

One lemma for each way `generate_sync_message` can end (`generate_cases`), what its
payload carries (`Carries`, `changesToSend_spec`) and what receiving that payload
does to a document (`Receives`, `loadIncremental_carries`). The runs of `am_sync`
are argued from these alone.
-/

namespace AutomergeR

variable {H A P : Type} [LinearOrder H] [LinearOrder A] [ChangeHash H A P]
  {M : OpSetModel H A P} (fmt : ChunkFormat H A P) {B : BloomScheme H}

namespace Automerge

variable {doc other doc' : Automerge M} {st st' : SyncState B}

/-! ## What is needed -/

omit [LinearOrder A] in
theorem mem_getMissingDeps {heads : List H} {x : H} : x ∈ doc.getMissingDeps heads ↔
    ((∃ c ∈ doc.queue, x ∈ c.deps) ∨ x ∈ heads) ∧ x ∉ doc.known := by
  have hheld : x ∈ doc.held ↔ ∃ c ∈ doc.queue, c.hash = x := Iff.rfl
  simp only [getMissingDeps, Finset.mem_sort, Finset.mem_sdiff, List.mem_toFinset,
    List.mem_filter, List.mem_append, List.mem_flatMap, List.mem_map, decide_eq_true_eq,
    hasChange_iff, Automerge.known, Set.mem_union, hheld, not_or, and_assoc]

omit [LinearOrder A] in
theorem getMissingDeps_nodup (heads : List H) : (doc.getMissingDeps heads).Nodup :=
  Finset.sort_nodup _ _

omit [LinearOrder A] in
theorem getMissingDeps_of_queue_nil {doc : Automerge M} (hq : doc.queue = []) :
    doc.getMissingDeps [] = [] := by
  rw [List.eq_nil_iff_forall_not_mem]
  intro x hx
  obtain ⟨⟨c, hc, -⟩ | hx, -⟩ := mem_getMissingDeps.mp hx
  · rw [hq] at hc
    cases hc
  · cases hx

omit [LinearOrder A] in
/-- A settled document that lacks one of the other's changes asks for something it
has not received: below its queue there is always a hash it is waiting for. -/
theorem exists_need (h : doc.WF) (hs : doc.Settled) (ho : other.WF)
    (hlack : ¬ other.applied ⊆ doc.applied) :
    ∃ x, x ∈ doc.getMissingDeps other.getHeads := by
  obtain ⟨x, hx, hxn⟩ : ∃ x ∈ other.getHeads, x ∉ doc.applied := by
    by_contra hall
    push Not at hall
    exact hlack (applied_subset_of_getHeads h ho hall)
  by_cases hheld : x ∈ doc.held
  · -- the lowest held change waits for something not received at all
    have hne : {y | y ∈ doc.held}.Nonempty := ⟨x, hheld⟩
    obtain ⟨y, ⟨c, hc, rfl⟩, hmin⟩ :=
      (dep_wellFounded (H := H) (A := A) (P := P)).has_min _ hne
    obtain ⟨d, hd, hdn⟩ := hs c hc
    refine ⟨d, mem_getMissingDeps.mpr ⟨Or.inl ⟨c, hc, hd⟩, ?_⟩⟩
    rintro (hda | hdh)
    · exact hdn hda
    · exact hmin d hdh (dep_hash.mpr hd)
  · exact ⟨x, mem_getMissingDeps.mpr ⟨Or.inr hx, not_or.mpr ⟨hxn, hheld⟩⟩⟩

/-! ## What is selected to be sent -/

theorem selectDependents_subset {dependents : H → List H} {S : Set H}
    (hdep : ∀ x, ∀ y ∈ dependents x, y ∈ S) : ∀ (fuel : ℕ) (stack : List H)
    (selected : Finset H), (∀ x ∈ selected, x ∈ S) →
    ∀ x ∈ selectDependents dependents fuel stack selected, x ∈ S
  | 0, _, _, hsel => hsel
  | _ + 1, [], _, hsel => hsel
  | fuel + 1, y :: stack, selected, hsel => by
    refine selectDependents_subset hdep fuel _ _ fun x hx => ?_
    rcases Finset.mem_union.mp hx with hx | hx
    · exact hsel x hx
    · exact hdep y x (List.mem_of_mem_filter (List.mem_toFinset.mp hx))

omit [LinearOrder A] in
theorem hashesToSend_subset (doc : Automerge M) (haves : List (Have B)) (hashes : List H) :
    ∀ x ∈ doc.hashesToSend haves hashes, x ∈ hashes :=
  selectDependents_subset (S := {y | y ∈ hashes}) (fun _ _ hy => List.mem_of_mem_filter hy) _ _ _
    fun _ hy => List.mem_of_mem_filter (List.mem_toFinset.mp hy)

/-- What is selected is applied, or was asked for. -/
theorem getHashesToSend_sound (h : doc.WF) {haves : List (Have B)} {need : List H} {x : H}
    (hx : x ∈ doc.getHashesToSend haves need) : x ∈ need ∨ x ∈ doc.applied := by
  unfold getHashesToSend at hx
  split at hx
  · exact Or.inl hx
  · rcases List.mem_append.mp hx with hx | hx
    · exact Or.inl (List.mem_of_mem_filter hx)
    · exact Or.inr (((h.graph.mem_getHashes h.ownChain).mp (List.mem_of_mem_filter hx)).1)

/-- Everything asked for is selected. -/
theorem need_subset_getHashesToSend (doc : Automerge M) (haves : List (Have B)) (need : List H) :
    need ⊆ doc.getHashesToSend haves need := by
  intro x hx
  unfold getHashesToSend
  split
  · exact hx
  · by_cases hxs : x ∈ doc.hashesToSend haves
        (doc.changeGraph.getHashes (haves.flatMap Have.lastSync))
    · exact List.mem_append_right _
        (List.mem_filter.mpr ⟨hashesToSend_subset doc haves _ x hxs, by simpa using hxs⟩)
    · exact List.mem_append_left _ (List.mem_filter.mpr ⟨hx, by simpa using hxs⟩)

theorem getHashesToSend_nodup (h : doc.WF) {haves : List (Have B)} {need : List H}
    (hneed : need.Nodup) : (doc.getHashesToSend haves need).Nodup := by
  unfold getHashesToSend
  split
  · exact hneed
  · have hnd := (h.graph.getHashes_sublist h.ownChain (haves.flatMap Have.lastSync)).nodup
      h.graph.nodup
    refine (hneed.filter _).append (hnd.filter _) fun x hx hx' => ?_
    have h1 := (List.mem_filter.mp hx).2
    have h2 := (List.mem_filter.mp hx').2
    simp only [decide_eq_true_eq] at h1 h2
    exact h1 h2

/-- A peer that has applied all this one has, and summarises it, is sent nothing. -/
theorem getHashesToSend_covered (h : doc.WF) (ho : other.WF) (hsub : doc.applied ⊆ other.applied)
    {lastSync : List H} (hlast : ∀ x ∈ lastSync, x ∈ other.applied → x ∈ doc.applied) :
    doc.getHashesToSend [other.makeBloomFilter B lastSync] [] = [] := by
  have hknown : other.changeGraph.known lastSync = doc.changeGraph.known lastSync := by
    rw [known_eq, known_eq]
    ext x
    exact ⟨fun hx => ⟨hx.1, hlast x hx.1 hx.2⟩, fun hx => ⟨hx.1, hsub hx.2⟩⟩
  have hclaimed : ∀ x ∈ doc.changeGraph.getHashes lastSync,
      B.containsHash (other.makeBloomFilter B lastSync).bloom x = true := by
    intro x hx
    refine B.contains_fromHashes _ x ?_
    rw [h.graph.mem_getHashes h.ownChain] at hx
    rw [ho.graph.mem_getHashes ho.ownChain]
    exact ⟨hsub hx.1, hknown ▸ hx.2⟩
  have hnone : doc.hashesToSend [other.makeBloomFilter B lastSync]
      (doc.changeGraph.getHashes lastSync) = ∅ := by
    have hunclaimed : (doc.changeGraph.getHashes lastSync).filter (fun h =>
        [other.makeBloomFilter B lastSync].all fun hv => ¬ B.containsHash hv.bloom h) = [] := by
      rw [List.filter_eq_nil_iff]
      intro x hx
      simp [hclaimed x hx]
    rw [hashesToSend]
    simp only [hunclaimed]
    rfl
  have hflat : [other.makeBloomFilter B lastSync].flatMap Have.lastSync = lastSync := by
    simp [makeBloomFilter]
  rw [getHashesToSend, if_neg (by simp), hflat]
  simp only [hnone, List.filter_nil, List.nil_append, Finset.notMem_empty, decide_false,
    List.filter_false]

/-- A peer that has applied the same changes and summarises them is sent nothing. -/
theorem getHashesToSend_same (h : doc.WF) (ho : other.WF) (heq : doc.applied = other.applied)
    (lastSync : List H) :
    doc.getHashesToSend [other.makeBloomFilter B lastSync] [] = [] :=
  getHashesToSend_covered h ho heq.le fun _ _ hx => heq.ge hx

/-! ## The payload -/

/-- The payload `changes` holds the changes with the given hashes, either as such or
as the whole saved document. -/
inductive Carries (doc : Automerge M) (changes : List (List UInt8)) (hashes : List H) : Prop
  | changes (cs : List (Change H A P)) (hsub : cs ⊆ doc.changeGraph.changes)
      (hbytes : changes.flatten = cs.flatMap fmt.rawBytes) (hhashes : cs.map Change.hash = hashes)
      (hnil : changes = [] → cs = [])
  | document (hbytes : changes.flatten = doc.save fmt) (hne : changes ≠ [])
      (hhashes : ∀ x, x ∈ hashes ↔ x ∈ doc.applied)

variable {fmt} in
theorem Carries.applied {changes : List (List UInt8)} {hashes : List H}
    (h : doc.Carries fmt changes hashes) : ∀ x ∈ hashes, x ∈ doc.applied := by
  intro x hx
  rcases h with ⟨cs, hsub, _, rfl, _⟩ | ⟨_, _, hh⟩
  · obtain ⟨c, hc, rfl⟩ := List.mem_map.mp hx
    exact ChangeGraph.hash_mem_hashes.mpr (hsub hc)
  · exact (hh x).mp hx

theorem flatMap_rawBytes_length : ∀ {cs : List (Change H A P)}, cs ≠ [] →
    1 < (cs.flatMap fmt.rawBytes).length
  | c :: cs, _ => by
    have := fmt.rawBytes_length c
    rw [List.flatMap_cons, List.length_append]
    omega

theorem carries_newV2 {cs : List (Change H A P)} (hsub : cs ⊆ doc.changeGraph.changes) :
    doc.Carries fmt (newV2 (cs.flatMap fmt.rawBytes)) (cs.map Change.hash) := by
  by_cases hcs : cs = []
  · subst hcs
    exact .changes [] (List.nil_subset _) rfl rfl fun _ => rfl
  · have hlen := flatMap_rawBytes_length fmt hcs
    rw [newV2, if_pos hlen]
    exact .changes cs hsub (by simp) rfl (by simp)

/-- **A payload** carries all that is asked for and has not been sent. -/
theorem changesToSend_carries (h : doc.WF) (hneed : ∀ ns, st.theirNeed = some ns → ns.Nodup)
    {changes : List (List UInt8)} {hashes : List H} {version : MessageVersion}
    (hch : doc.changesToSend fmt st = some (some (changes, hashes, version))) :
    doc.Carries fmt changes hashes ∧
      (∀ hvs ns, st.theirHave = some hvs → st.theirNeed = some ns →
        ∀ x ∈ ns, x ∉ st.sentHashes → x ∈ doc.applied → x ∈ hashes) := by
  unfold changesToSend at hch
  rcases hhave : st.theirHave with _ | hvs
  · simp only [hhave, Option.some.injEq, Prod.mk.injEq] at hch
    obtain ⟨rfl, rfl, -⟩ := hch
    exact ⟨.changes [] (List.nil_subset _) rfl rfl fun _ => rfl, fun _ _ h => by cases h⟩
  rcases hns : st.theirNeed with _ | ns
  · simp only [hhave, hns, Option.some.injEq, Prod.mk.injEq] at hch
    obtain ⟨rfl, rfl, -⟩ := hch
    exact ⟨.changes [] (List.nil_subset _) rfl rfl fun _ => rfl, fun _ _ _ h => by cases h⟩
  simp only [hhave, hns] at hch
  split at hch
  · have hlen : 1 < (doc.save fmt).length := by
      have := fmt.documentBytes_length (sortHashes doc.changeGraph.heads)
        doc.changeGraph.changes
      rw [save, List.length_append]
      omega
    have hall : ∀ x, x ∈ doc.changeGraph.getHashes [] ↔ x ∈ doc.applied := by
      intro x
      rw [h.graph.mem_getHashes h.ownChain]
      have hpast : x ∉ Causal.Past (Dep A P) (doc.changeGraph.known []) := by
        rintro ⟨y, ⟨hy, _⟩, _⟩
        cases hy
      exact and_iff_left hpast
    simp only [newV2, if_pos hlen, Option.some.injEq, Prod.mk.injEq] at hch
    obtain ⟨rfl, rfl, -⟩ := hch
    exact ⟨.document (by simp) (by simp) hall, fun _ _ _ _ x _ _ hx => (hall x).mpr hx⟩
  · -- what is selected is there, or there would be no answer
    have hmem : ∀ x ∈ (doc.getHashesToSend hvs ns).filter (· ∉ st.sentHashes), x ∈ doc.applied := by
      intro x hx
      by_contra hxn
      obtain ⟨y, hy⟩ := getChangesByHashes_missing hx hxn
      rw [hy] at hch
      simp at hch
    obtain ⟨cs, hget, hmap, hsub⟩ := getChangesByHashes_spec h
      ((doc.getHashesToSend hvs ns).filter (· ∉ st.sentHashes))
      ((getHashesToSend_nodup h (hneed ns hns)).filter _) hmem
    have hasked : ∀ hvs' ns', some hvs = some hvs' → some ns = some ns' → ∀ x ∈ ns',
        x ∉ st.sentHashes → x ∈ doc.applied →
          x ∈ (doc.getHashesToSend hvs ns).filter (· ∉ st.sentHashes) := by
      intro _ ns' _ hns' x hx hxs _
      obtain rfl : ns = ns' := by simpa using hns'
      exact List.mem_filter.mpr ⟨need_subset_getHashesToSend doc hvs ns hx, by simpa using hxs⟩
    simp only [hget] at hch
    split at hch
    · simp only [Option.some.injEq, Prod.mk.injEq] at hch
      obtain ⟨rfl, rfl, -⟩ := hch
      exact ⟨hmap ▸ carries_newV2 fmt hsub, hasked⟩
    · simp only [Option.some.injEq, Prod.mk.injEq] at hch
      obtain ⟨rfl, rfl, -⟩ := hch
      exact ⟨.changes cs hsub (by rw [List.flatMap]) hmap (by simp), hasked⟩

/-- **A payload is found** as long as what is asked for is there. -/
theorem changesToSend_spec (h : doc.WF)
    (hneed : ∀ ns, st.theirNeed = some ns → ns.Nodup ∧ ∀ x ∈ ns, x ∈ doc.applied) :
    ∃ changes hashes version,
      doc.changesToSend fmt st = some (some (changes, hashes, version)) ∧
      doc.Carries fmt changes hashes ∧
      (∀ hvs ns, st.theirHave = some hvs → st.theirNeed = some ns →
        ∀ x ∈ ns, x ∉ st.sentHashes → x ∈ hashes) := by
  obtain ⟨ch, hs, v, hch⟩ : ∃ changes hashes version,
      doc.changesToSend fmt st = some (some (changes, hashes, version)) := by
    unfold changesToSend
    rcases hhave : st.theirHave with _ | hvs
    · exact ⟨_, _, _, rfl⟩
    rcases hns : st.theirNeed with _ | ns
    · exact ⟨_, _, _, rfl⟩
    obtain ⟨hnd, hmem⟩ := hneed ns hns
    simp only
    split
    · exact ⟨_, _, _, rfl⟩
    · obtain ⟨cs, hget, -⟩ := getChangesByHashes_spec h
        ((doc.getHashesToSend hvs ns).filter (· ∉ st.sentHashes))
        ((getHashesToSend_nodup h hnd).filter _) (by
          intro x hx
          exact (getHashesToSend_sound h (List.mem_of_mem_filter hx)).elim (hmem x) id)
      simp only [hget]
      split <;> exact ⟨_, _, _, rfl⟩
  obtain ⟨hcarries, hasked⟩ := changesToSend_carries fmt h (fun ns hns => (hneed ns hns).1) hch
  exact ⟨ch, hs, v, hch, hcarries, fun hvs ns hhave hns x hx hxs =>
    hasked hvs ns hhave hns x hx hxs ((hneed ns hns).2 x hx)⟩

/-! ## Generating -/

omit [LinearOrder A] in
theorem mustReset_eq_false {st : SyncState B}
    (hhave : ∀ hvs, st.theirHave = some hvs → ∀ hv ∈ hvs, ∀ x ∈ hv.lastSync, x ∈ doc.applied) :
    doc.mustReset st = false := by
  unfold mustReset
  split
  · rename_i hv hvs heq
    have hall : hv.lastSync.all doc.hasChange = true := List.all_eq_true.mpr fun x hx =>
      hasChange_iff.mpr (hhave _ heq hv List.mem_cons_self x hx)
    simp [hall]
  · rfl

/-- The message of a peer that is neither reset nor stuck. -/
def message (doc : Automerge M) (st : SyncState B) (changes : List (List UInt8))
    (version : MessageVersion) : Message B where
  heads := doc.getHeads
  need := doc.ourNeed st
  haves := doc.ourHave st
  changes := changes
  supportedCapabilities := if st.haveResponded then none else some [.messageV1, .messageV2]
  version := version

/-- **The four ways `generate_sync_message` ends**: a reset, an unknown hash, nothing
to say, a message. -/
theorem generate_cases {msg : Option (Message B)}
    (hgen : doc.generateSyncMessage fmt st = some (st', msg)) :
    (doc.mustReset st = true ∧ st' = st ∧ msg = some doc.resetMessage) ∨
    (doc.changesToSend fmt st = some none ∧ st' = st ∧ msg = none) ∨
    ∃ changes hashes version,
      doc.mustReset st = false ∧
      doc.changesToSend fmt st = some (some (changes, hashes, version)) ∧
      ((doc.nothingToSend st hashes = true ∧ st' = st ∧ msg = none) ∨
        (doc.nothingToSend st hashes = false ∧ st' = doc.sent st hashes ∧
          msg = some (doc.message st changes version))) := by
  unfold generateSyncMessage at hgen
  split at hgen
  · rename_i hreset
    simp only [Option.some.injEq, Prod.mk.injEq] at hgen
    exact Or.inl ⟨hreset, hgen.1.symm, hgen.2.symm⟩
  · rename_i hreset
    split at hgen
    · cases hgen
    · rename_i hch
      simp only [Option.some.injEq, Prod.mk.injEq] at hgen
      exact Or.inr (Or.inl ⟨hch, hgen.1.symm, hgen.2.symm⟩)
    · rename_i changes hashes version hch
      refine Or.inr (Or.inr ⟨changes, hashes, version, by simpa using hreset, hch, ?_⟩)
      split at hgen
      · rename_i hnothing
        simp only [Option.some.injEq, Prod.mk.injEq] at hgen
        exact Or.inl ⟨hnothing, hgen.1.symm, hgen.2.symm⟩
      · rename_i hnothing
        simp only [Option.some.injEq, Prod.mk.injEq] at hgen
        exact Or.inr ⟨by simpa using hnothing, hgen.1.symm, hgen.2.symm⟩

/-- What the other peer has said is not touched. -/
theorem generate_told {msg : Option (Message B)}
    (hgen : doc.generateSyncMessage fmt st = some (st', msg)) :
    st'.theirHeads = st.theirHeads ∧ st'.theirHave = st.theirHave ∧ st'.theirNeed = st.theirNeed := by
  rcases generate_cases fmt hgen with ⟨_, rfl, _⟩ | ⟨_, rfl, _⟩ | ⟨_, _, _, _, _, hrest⟩
  · exact ⟨rfl, rfl, rfl⟩
  · exact ⟨rfl, rfl, rfl⟩
  · rcases hrest with ⟨_, rfl, _⟩ | ⟨_, rfl, _⟩ <;> exact ⟨rfl, rfl, rfl⟩

/-! ## Receiving -/

theorem receiveSyncMessage_nil (h : msg.changes = []) :
    doc.receiveSyncMessage fmt st msg = .ok (doc, doc.noteMessage doc.getHeads st msg) := by
  rw [receiveSyncMessage, receiveSyncMessageLogPatches, h]
  rfl

theorem receiveSyncMessage_changes (h : msg.changes ≠ []) :
    doc.receiveSyncMessage fmt st msg =
      match doc.loadIncremental fmt msg.changes.flatten with
      | .ok doc' => .ok (doc', doc'.noteMessage doc.getHeads st msg)
      | .error e doc' => .error e (doc', { st with
          inFlight := false
          theirCapabilities := msg.supportedCapabilities.or st.theirCapabilities })
      | .panic => .panic := by
  have hne : msg.changes.isEmpty = false := by simpa using h
  rw [receiveSyncMessage, receiveSyncMessageLogPatches, hne, loadIncremental]
  rcases doc.loadIncrementalLogPatches fmt .inactive msg.changes.flatten with _ | _ | _ <;> rfl

variable {log log' : PatchLog A} {err : Option (AutomergeError H A)}

/-- What a message does does not depend on the patch log. -/
theorem receiveSyncMessage_of_logged
    (h : doc.receiveSyncMessageLogPatches fmt log st msg = .after err ((doc', log'), st')) :
    doc.receiveSyncMessage fmt st msg = .after err (doc', st') := by
  rw [receiveSyncMessageLogPatches] at h
  by_cases hnil : msg.changes = []
  · rw [receiveSyncMessage_nil fmt hnil]
    rw [hnil] at h
    cases err <;> cases h
    rfl
  · have hne : msg.changes.isEmpty = false := by simpa using hnil
    rw [hne, if_neg Bool.false_ne_true] at h
    rw [receiveSyncMessage_changes fmt hnil]
    rcases hload : doc.loadIncrementalLogPatches fmt log msg.changes.flatten with ⟨d, l⟩ | ⟨e, d, l⟩ | _
    · rw [hload] at h
      cases err <;> cases h
      rw [loadIncremental_of_logged (show _ = Outcome.after none (doc', log') from hload)]
      rfl
    · rw [hload] at h
      cases err <;> cases h
      rw [loadIncremental_of_logged (show _ = Outcome.after (some e) (doc', log') from hload)]
      rfl
    · rw [hload] at h
      cases err <;> cases h

/-- Where the actors that only the log has come behind all others, it follows any message. -/
theorem receiveSyncMessageLogPatches_of_follows (hg : doc.changeGraph.WF) {S : Set A}
    (hlog : log.Follows doc.actors S) (hall : ∀ a ∈ doc'.actors, a ∈ S)
    (h : doc.receiveSyncMessage fmt st msg = .ok (doc', st')) :
    doc.actors ⊆ doc'.actors ∧ ∃ log',
      doc.receiveSyncMessageLogPatches fmt log st msg = .ok ((doc', log'), st') ∧
        log'.actors ⊆ log.actors ∪ doc'.actors := by
  rw [receiveSyncMessageLogPatches]
  by_cases hnil : msg.changes = []
  · rw [receiveSyncMessage_nil fmt hnil] at h
    cases h
    rw [hnil]
    exact ⟨subset_rfl, log, rfl, Finset.subset_union_left⟩
  · have hne : msg.changes.isEmpty = false := by simpa using hnil
    rw [receiveSyncMessage_changes fmt hnil] at h
    rcases hload : doc.loadIncremental fmt msg.changes.flatten with d | ⟨e, d⟩ | _
    · rw [hload] at h
      cases h
      obtain ⟨hmono, log', hlogged, hsub⟩ := loadIncrementalLogPatches_of_follows hg hlog hall
        (show _ = Outcome.after none doc' from hload)
      refine ⟨hmono, log', ?_, hsub⟩
      rw [hne, if_neg Bool.false_ne_true, hlogged]
      rfl
    · rw [hload] at h
      cases h
    · rw [hload] at h
      cases h

/-- What `doc` keeps and gains when it receives what `other` carries. -/
structure Receives (other doc doc' : Automerge M) (hashes : List H) : Prop where
  wf : doc'.WF
  settled : doc.Settled → doc'.Settled
  applied : doc.applied ⊆ doc'.applied
  known : doc.known ⊆ doc'.known
  gained : ∀ x ∈ hashes, x ∈ doc'.known
  source : doc'.known ⊆ doc.known ∪ other.applied ∨ doc'.known = doc.known ∪ other.known

variable {fmt} in
theorem receives_of_carries (h : doc.WF) (ho : other.WF) {changes : List (List UInt8)}
    {hashes : List H} (hc : other.Carries fmt changes hashes) :
    (changes = [] → other.Receives doc doc hashes) ∧
    (changes ≠ [] →
      (∀ doc', doc.loadIncremental fmt changes.flatten = .ok doc' →
        other.Receives doc doc' hashes) ∧
      (NoClash {c : Change H A P | c.hash ∈ doc.known ∪ other.known} →
        ∃ doc', doc.loadIncremental fmt changes.flatten = .ok doc')) := by
  have hmem : ∀ {d : Automerge M} {c : Change H A P}, c ∈ d.changeGraph.changes ∨ c ∈ d.queue →
      c.hash ∈ d.known := by
    rintro d c (hc | hc)
    · exact Or.inl (ChangeGraph.hash_mem_hashes.mpr hc)
    · exact Or.inr (mem_hashesOf.mpr hc)
  rcases hc with ⟨cs, hsub, hbytes, rfl, hnil⟩ | ⟨hbytes, hne, hhashes⟩
  · have hsubA : hashesOf cs ⊆ other.applied := by
      rw [applied_eq_hashesOf]
      exact hashesOf_mono hsub
    have hgained : ∀ x ∈ cs.map Change.hash, x ∈ hashesOf cs := by
      intro x hx
      obtain ⟨c, hc, rfl⟩ := List.mem_map.mp hx
      exact ⟨c, hc, rfl⟩
    constructor
    · intro hnilc
      rw [hnil hnilc]
      exact ⟨h, id, subset_rfl, subset_rfl, by simp, Or.inl Set.subset_union_left⟩
    · intro _
      rw [hbytes]
      obtain ⟨hspec, htotal⟩ := loadIncremental_rawBytes fmt h cs
        fun c hc => ho.honest c (Or.inl (hsub hc))
      refine ⟨fun doc' hdoc => ?_, fun hclash => htotal (hclash.mono fun c hc => ?_)⟩
      · obtain ⟨hwf, hs, _, happ, hknown⟩ := hspec doc' hdoc
        refine ⟨hwf, fun _ => hs, happ, hknown ▸ Set.subset_union_left, fun x hx => ?_, Or.inl ?_⟩
        · exact hknown ▸ Or.inr (hgained x hx)
        · exact hknown ▸ Set.union_subset_union_right _ hsubA
      · rcases hc with hc | hc | hc
        · exact Or.inl (hmem (Or.inl hc))
        · exact Or.inl (hmem (Or.inr hc))
        · exact Or.inr (hmem (Or.inl (hsub hc)))
  · refine ⟨fun h => absurd h hne, fun _ => ?_⟩
    rw [hbytes]
    obtain ⟨hspec, htotal⟩ := loadIncremental_save fmt h ho
    refine ⟨fun doc' hdoc => ?_, fun hclash => htotal (hclash.mono fun c hc => ?_)⟩
    · obtain ⟨hwf, hs, _, happ, hknown⟩ := hspec doc' hdoc
      refine ⟨hwf, fun _ => hs, happ, hknown ▸ Set.subset_union_left, fun x hx => ?_, Or.inr hknown⟩
      exact hknown ▸ Or.inr (Or.inl ((hhashes x).mp hx))
    · rcases hc with hc | hc | hc
      · exact Or.inl (hmem (Or.inl hc))
      · exact Or.inl (hmem (Or.inr hc))
      · exact Or.inr (hmem hc)

end Automerge

end AutomergeR
