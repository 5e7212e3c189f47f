import AutomergeR.OpLog

/-! # Every call issues operations

What a call of the library does is to issue operations, one after the other, and what these
name is there. So a call makes the log longer, and the columns go on recording it
(`advances_invariant`).
-/

namespace AutomergeR

variable {A : Type}

theorem Op.suits_of_seq {op : Op A} {t : ObjType} (ht : t.isSequence = true) (h : op.SuitsSeq t) :
    op.Suits t := by
  cases t with
  | map | table => cases ht
  | list | text => exact h

variable [LinearOrder A]

namespace OpSet

omit [LinearOrder A] in
/-- What is found at an index are rows of the object. -/
theorem textOps_sublist : ∀ (rows : List (Row A)) (pos : ℕ) (ops : List (Row A)),
    ∃ l, (textOps rows pos ops).1 = ops ++ l ∧ l.Sublist rows ∧ ∀ r ∈ l, r.action.isMark = false
  | [], _, ops => ⟨[], by rw [List.append_nil]; rfl, List.Sublist.refl [], by simp⟩
  | r :: rows, pos, ops => by
    unfold textOps
    split
    · exact ⟨[], by rw [List.append_nil], List.nil_sublist _, by simp⟩
    · split
      · rename_i hr
        obtain ⟨l, heq, hl, hmark⟩ := textOps_sublist rows (pos + 1) (ops ++ [r])
        refine ⟨r :: l, by rw [heq, List.append_assoc]; rfl, hl.cons_cons r, fun x hx => ?_⟩
        rcases List.mem_cons.mp hx with rfl | hx
        · simpa using (Bool.and_eq_true_iff.mp hr).2
        · exact hmark x hx
      · obtain ⟨l, heq, hl, hmark⟩ := textOps_sublist rows (pos + 1) ops
        exact ⟨l, heq, hl.cons r, hmark⟩

omit [LinearOrder A] in
theorem seekTextOps_sublist (rows : List (Row A)) (index : ℕ) :
    (seekTextOpsByIndex rows index).ops.Sublist rows ∧
      ∀ r ∈ (seekTextOpsByIndex rows index).ops, r.action.isMark = false := by
  unfold seekTextOpsByIndex
  split
  · rename_i pos acc _
    obtain ⟨l, heq, hl, hmark⟩ := textOps_sublist (rows.drop pos) pos []
    rw [List.nil_append] at heq
    simp only [heq]
    exact ⟨hl.trans (List.drop_sublist pos rows), hmark⟩
  · exact ⟨List.nil_sublist _, by simp⟩

omit [LinearOrder A] in
theorem seekOps_sublist (t : ObjType) (rows : List (Row A)) (index : ℕ) :
    (seekOpsByIndex t rows index).ops.Sublist rows ∧
      (t = .text → ∀ r ∈ (seekOpsByIndex t rows index).ops, r.action.isMark = false) := by
  unfold seekOpsByIndex
  split
  · exact ⟨(seekTextOps_sublist rows index).1, fun _ => (seekTextOps_sublist rows index).2⟩
  · rename_i htext
    refine ⟨?_, fun ht => absurd ht htext⟩
    unfold seekListOpsByIndex
    split
    · exact List.filter_sublist.trans ((List.drop_sublist _ _).trans (List.take_sublist _ _))
    · exact List.nil_sublist _

end OpSet

namespace Tx

omit [LinearOrder A] in
/-- An operation takes the operations found for its predecessors, or some of them. -/
theorem resolveAction_some {ops ops' : List (Row A)} {action action' : OpType}
    (h : resolveAction ops action = some (ops', action')) :
    ops'.Sublist ops ∧ (action' = action ∨ action' = .delete) := by
  unfold resolveAction at h
  split at h
  · split at h
    · split at h
      · cases h
      · cases h
        exact ⟨List.dropLast_sublist ops, Or.inr rfl⟩
    · cases h
      exact ⟨List.Sublist.refl ops, Or.inl rfl⟩
  · cases h
  · cases h
    exact ⟨List.Sublist.refl ops, Or.inl rfl⟩

omit [LinearOrder A] in
/-- What is to be deleted is there. -/
theorem resolveAction_delete {ops ops' : List (Row A)} {action action' : OpType}
    (h : resolveAction ops action = some (ops', action')) (hdel : action' = .delete) :
    ops' ≠ [] := by
  subst hdel
  unfold resolveAction at h
  split at h
  · rename_i op v hlast
    have hne : ops ≠ [] := by
      rintro rfl
      cases hlast
    split at h
    · split at h
      · cases h
      · rename_i hlen
        cases h
        have hpos := List.length_pos_of_ne_nil hne
        refine List.ne_nil_of_length_pos ?_
        rw [List.length_dropLast]
        omega
    · cases h
  · cases h
  · rename_i hnone
    cases h
    rintro rfl
    exact hnone rfl rfl

variable {base : Log A} {tx tx' tx'' : Tx A} {pos : ℕ} {op : Op A} {obj : ObjId A} {t : ObjType}

/-- The columns record the log, which has grown. -/
structure Advances (base : Log A) (tx tx' : Tx A) : Prop where
  logged : tx'.Logged base
  grows : tx.log base ⊆ tx'.log base
  startOp : tx'.startOp = tx.startOp
  actor : tx'.actor = tx.actor

theorem Advances.refl (h : tx.Logged base) : Advances base tx tx := ⟨h, subset_rfl, rfl, rfl⟩

theorem Advances.trans (h : Advances base tx tx') (h' : Advances base tx' tx'') :
    Advances base tx tx'' :=
  ⟨h'.logged, h.grows.trans h'.grows, h'.startOp.trans h.startOp, h'.actor.trans h.actor⟩

theorem Logged.advances (h : tx.Logged base) (hp : tx.Placed base pos op) :
    Advances base tx (tx.issue pos op) where
  logged := h.issue hp
  grows := subset_issue
  startOp := rfl
  actor := rfl

/-- An operation without predecessors only adds its row. -/
theorem issue_of_pred_nil (hpred : op.pred = []) : tx.issue pos op = tx.splice pos op := by
  unfold issue addSuccs setRows succRows
  rw [hpred]
  simp

/-- `expose` says nothing new of the operations. -/
theorem rows_expose (tx : Tx A) (obj o : ObjId A) (id : OpId A) : (tx.expose obj id).ops.rows o =
    (tx.ops.rows o).map fun r => if o = obj ∧ r.id = id then { r with top := true } else r := by
  unfold expose
  by_cases ho : o = obj
  · subst ho
    rw [rows_setRows]
    simp
  · rw [rows_setRows_ne _ _ ho]
    simp [ho]

theorem Logged.expose (h : tx.Logged base) (obj : ObjId A) (id : OpId A) :
    (tx.expose obj id).Logged base := by
  have hlog : (tx.expose obj id).log base = tx.log base := rfl
  have hfields : ∀ (o : ObjId A) (r : Row A), ∃ top : Bool,
      (if o = obj ∧ r.id = id then { r with top := true } else r) = { r with top := top } := by
    intro o r
    split
    · exact ⟨true, rfl⟩
    · exact ⟨r.top, rfl⟩
  have hmem : ∀ o, ∀ r ∈ (tx.expose obj id).ops.rows o, ∃ x ∈ tx.ops.rows o, ∃ top : Bool,
      r = { x with top := top } := by
    intro o r hr
    rw [rows_expose] at hr
    obtain ⟨x, hx, rfl⟩ := List.mem_map.mp hr
    obtain ⟨top, htop⟩ := hfields o x
    exact ⟨x, hx, top, htop⟩
  refine ⟨hlog ▸ h.wf, h.below, ⟨fun o => ?_, fun o r hr => ?_, fun p hp hdel => ?_,
    h.represents.made⟩, fun hplain => ?_⟩
  · rw [rows_expose, List.map_map]
    have hid : (Row.id ∘ fun r : Row A => if o = obj ∧ r.id = id then { r with top := true } else r) =
        Row.id := by
      funext r
      show Row.id (if o = obj ∧ r.id = id then { r with top := true } else r) = r.id
      obtain ⟨top, htop⟩ := hfields o r
      rw [htop]
    rw [hid]
    exact h.represents.nodup o
  · obtain ⟨x, hx, top, rfl⟩ := hmem o r hr
    obtain ⟨p, hp, hobj, hdel, hrec⟩ := h.represents.row o x hx
    exact ⟨p, hp, hobj, hdel, hrec.id, hrec.key, hrec.insert, hrec.action⟩
  · obtain ⟨r, hr, hrec⟩ := h.represents.op p hp hdel
    refine ⟨_, by rw [rows_expose]; exact List.mem_map_of_mem hr, ?_⟩
    obtain ⟨top, htop⟩ := hfields p.2.obj r
    rw [htop]
    exact ⟨hrec.id, hrec.key, hrec.insert, hrec.action⟩
  · have hold := h.detailed hplain
    refine ⟨fun o r hr => ?_, fun o r hr => ?_, fun o t ht => ?_, fun o ht r hr => ?_,
      fun o r hr => ?_⟩
    · obtain ⟨x, hx, top, rfl⟩ := hmem o r hr
      exact ⟨(hold.succ o x hx).nodup, (hold.succ o x hx).mem⟩
    · obtain ⟨x, hx, top, rfl⟩ := hmem o r hr
      exact hold.indexed o x hx
    · rw [rows_expose]
      refine (hold.order o t ht).map fun r => ?_
      obtain ⟨top, htop⟩ := hfields o r
      rw [htop]
      exact ⟨rfl, rfl, rfl⟩
    · obtain ⟨x, hx, top, rfl⟩ := hmem o r hr
      exact hold.text o ht x hx
    · obtain ⟨x, hx, top, rfl⟩ := hmem o r hr
      exact hold.width o x hx

namespace Logged

variable (h : tx.Logged base)

include h

/-! ## What an operation may name -/

theorem rooted (ht : (tx.log base).MadeAs op.obj t) (hsuits : op.Suits t)
    (helem : ∀ e, op.key = .seq (some e) → ∃ q ∈ tx.log base, q.1 = e ∧ q.2.obj = op.obj ∧
      q.2.insert = true ∧ (op.insert = false → q.2.action.isMark = false))
    (hpred : ∀ e ∈ op.pred, ∃ q ∈ tx.log base, q.1 = e ∧ q.2.obj = op.obj ∧ q.2.action ≠ .delete ∧
      ∀ prop, op.key = .map prop → q.2.key = .map prop)
    (hnodup : op.pred.Nodup) (hmake : op.action ≠ .make .table)
    (honKey : (tx.log base).Plain → OnKey (tx.log base) (tx.nextId, op)) :
    Rooted (tx.log base) (tx.nextId, op) where
  typed := ⟨t, ht, hsuits⟩
  older id hid := by
    have hobj : op.obj = some id := hid
    rw [hobj] at ht
    obtain ⟨op', hop', -⟩ := ht
    exact h.below _ hop'
  element e he := by
    obtain ⟨q, hq, rfl, hrest⟩ := helem e he
    exact ⟨h.below q hq, q, hq, rfl, hrest⟩
  pred e he := by
    obtain ⟨q, hq, rfl, hrest⟩ := hpred e he
    exact ⟨h.below q hq, q, hq, rfl, hrest⟩
  nodup := hnodup
  noTable := hmake
  onKey := honKey

/-- An element with a row that is no mark can be named by an update. -/
theorem element (ht : (tx.log base).MadeAs obj t) (hseq : t.isSequence = true) {r : Row A}
    (hr : r ∈ tx.ops.rows obj) (hmark : t = .text → r.action.isMark = false) :
    ∃ e, r.cursor = some e ∧ ∃ q ∈ tx.log base, q.1 = e ∧ q.2.obj = obj ∧ q.2.insert = true ∧
      q.2.action.isMark = false := by
  obtain ⟨e, hcur, -, q, hq, hid, hobj, hins, hm⟩ := h.represents.cursor h.wf ht hseq hr
  refine ⟨e, hcur, q, hq, hid, hobj, hins, ?_⟩
  cases t with
  | map | table => cases hseq
  | list =>
    -- there are no marks in a list
    have hsuits := h.wf.suitsSeq (hobj.symm ▸ ht) rfl hq
    rcases hsuits.insertion hins with hset | ⟨hn, -⟩
    · cases hact : q.2.action <;> rw [hact] at hset <;> first | rfl | cases hset
    · cases hn
  | text => exact hm (hmark rfl)

/-- There are no increments in a sequence. -/
theorem seq_plain (hplain : (tx.log base).Plain) (ht : (tx.log base).MadeAs obj t)
    (hseq : t.isSequence = true) : ∀ r ∈ tx.ops.rows obj, r.isInc = false := by
  intro r hr
  obtain ⟨p, hp, rfl, -, hrec⟩ := h.represents.row obj r hr
  rw [Bool.eq_false_iff]
  intro hinc
  have hinc : p.2.action.isIncrement = true := hrec.action ▸ hinc
  obtain ⟨⟨prop, hkey⟩, -⟩ := hplain p hp hinc
  obtain ⟨e, hkey'⟩ := (h.wf.suitsSeq ht hseq hp).key
  rw [hkey] at hkey'
  cases hkey'

theorem seqKeys (ht : (tx.log base).MadeAs obj t) (hseq : t.isSequence = true) :
    ∀ r ∈ tx.ops.rows obj, ∃ e, r.key = .seq e := by
  intro r hr
  obtain ⟨p, hp, rfl, -, hrec⟩ := h.represents.row obj r hr
  rw [hrec.key]
  exact (h.wf.suitsSeq ht hseq hp).key

theorem seqRows (hplain : (tx.log base).Plain) (ht : (tx.log base).MadeAs obj t)
    (hseq : t.isSequence = true) : SeqRows (tx.ops.rows obj) := by
  have horder := (h.detailed hplain).order obj t ht
  cases t with
  | map | table => cases hseq
  | list | text => exact horder

/-! ## Operations on a key or an element -/

/-- What an operation on found rows needs to be collected again. -/
theorem onKey {key : Key A} {action : OpType} {ops : List (Row A)}
    (hops : ops.Sublist (tx.ops.rows obj)) (hfound : FoundOn key ops)
    (hne : action = .delete → ops ≠ []) :
    OnKey (tx.log base) (tx.nextId, ⟨obj, key, false, action, ops.map Row.id⟩) where
  pred e he := by
    obtain ⟨r, hr, rfl⟩ := List.mem_map.mp he
    obtain ⟨q, hq, -, -, hrec⟩ := h.represents.row obj r (hops.subset hr)
    refine ⟨q, hq, hrec.id.symm, ?_⟩
    rw [← hfound.key r hr]
    unfold Op.elemidOrKey Row.elemidOrKey
    rw [hrec.id, hrec.key, hrec.insert]
  sorted := List.pairwise_map.mpr hfound.sorted
  insertion := nofun
  deletion hdel hnil := hne hdel (List.map_eq_nil_iff.mp hnil)

/-- To overwrite, delete or increment what has been found. -/
theorem update (pos : ℕ) (ht : (tx.log base).MadeAs obj t) (key : Key A) (action : OpType)
    {ops : List (Row A)}
    (hops : ops.Sublist (tx.ops.rows obj)) (hmake : action ≠ .make .table)
    (hfound : (tx.log base).Plain → FoundOn key ops) (hne : action = .delete → ops ≠ [])
    (hsuits : Op.Suits ⟨obj, key, false, action, ops.map Row.id⟩ t)
    (hkeys : ∀ prop, key = .map prop → ∀ r ∈ ops, r.key = .map prop)
    (helem : ∀ e, key = .seq (some e) → ∃ q ∈ tx.log base, q.1 = e ∧ q.2.obj = obj ∧
      q.2.insert = true ∧ q.2.action.isMark = false)
    (hplace : (tx.log base).Plain →
      PlacedAt (tx.ops.rows obj) pos ⟨obj, key, false, action, ops.map Row.id⟩) :
    Advances base tx (tx.issue pos ⟨obj, key, false, action, ops.map Row.id⟩) := by
  refine h.advances ⟨h.rooted ht hsuits (fun e he => ?_) (fun e he => ?_) ?_ hmake
    fun hplain => h.onKey hops (hfound hplain) hne, fun hplain _ => ?_⟩
  · obtain ⟨q, hq, hid, hobj, hins, hm⟩ := helem e he
    exact ⟨q, hq, hid, hobj, hins, fun _ => hm⟩
  · obtain ⟨r, hr, rfl⟩ := List.mem_map.mp he
    obtain ⟨q, hq, hobj, hdel, hrec⟩ := h.represents.row obj r (hops.subset hr)
    exact ⟨q, hq, hrec.id.symm, hobj, hdel, fun prop hkey => hrec.key ▸ hkeys prop hkey r hr⟩
  · exact (h.represents.nodup obj).sublist (hops.map Row.id)
  · exact hplace (hplain.mono (Set.subset_insert _ _))

theorem localOp (ht : (tx.log base).MadeAs obj t) {key : Key A} (found : OpSet.OpsFound A)
    {action : OpType} (hops : found.ops.Sublist (tx.ops.rows obj)) (ha : action.isMark = false)
    (hmake : action ≠ .make .table) (hfound : (tx.log base).Plain → FoundOn key found.ops)
    (hsuits : ∀ action pred, OpType.isMark action = false → Op.Suits ⟨obj, key, false, action, pred⟩ t)
    (hkeys : ∀ prop, key = .map prop → ∀ r ∈ found.ops, r.key = .map prop)
    (helem : ∀ e, key = .seq (some e) → ∃ q ∈ tx.log base, q.1 = e ∧ q.2.obj = obj ∧
      q.2.insert = true ∧ q.2.action.isMark = false)
    (hplace : (tx.log base).Plain → ∀ action pred,
      PlacedAt (tx.ops.rows obj) found.endPos ⟨obj, key, false, action, pred⟩) :
    Advances base tx (tx.localOp obj key found action).1 := by
  unfold Tx.localOp
  split
  · exact .refl h
  · rename_i ops' action' hres
    obtain ⟨hsub, haction⟩ := resolveAction_some hres
    split
    · exact .refl h
    · have ha' : action'.isMark = false ∧ action' ≠ .make .table := by
        rcases haction with rfl | rfl
        · exact ⟨ha, hmake⟩
        · exact ⟨rfl, nofun⟩
      exact h.update _ ht _ _ (hsub.trans hops) ha'.2
        (fun hplain => (hfound hplain).sublist hsub) (resolveAction_delete hres) (hsuits _ _ ha'.1)
        (fun prop hkey r hr => hkeys prop hkey r (hsub.subset hr)) helem
        fun hplain => hplace hplain _ _

/-- What is visible under a key. -/
theorem foundOn_visibleAtKey (hplain : (tx.log base).Plain) (ht : (tx.log base).MadeAs obj .map)
    (prop : String) : FoundOn (.map prop) (OpSet.visibleAtKey (tx.ops.rows obj) prop) where
  sorted := by
    have horder : MapOrder (tx.ops.rows obj) := (h.detailed hplain).order obj .map ht
    refine (List.Pairwise.sublist List.filter_sublist horder).imp_of_mem fun {r r'} hr hr' hlt => ?_
    have hkey : ∀ r ∈ OpSet.visibleAtKey (tx.ops.rows obj) prop, r.mapKey = prop := by
      intro r hr
      unfold Row.mapKey
      rw [(of_decide_eq_true (List.mem_filter.mp hr).2).2]
    rw [hkey r hr, hkey r' hr'] at hlt
    exact hlt.elim (fun hlt => absurd hlt (lt_irrefl prop)) And.right
  key r hr := by
    obtain ⟨hmem, hvis⟩ := List.mem_filter.mp hr
    obtain ⟨p, hp, rfl, -, hrec⟩ := h.represents.row obj r hmem
    have hsuits : p.2.SuitsMap := h.wf.suits hp ht
    unfold Row.elemidOrKey
    rw [hrec.insert, hsuits.insert]
    exact (of_decide_eq_true hvis).2

/-- What is found at an index. -/
theorem foundOn_seekOps (hplain : (tx.log base).Plain) (ht : (tx.log base).MadeAs obj t)
    (hseq : t.isSequence = true) {index : ℕ} {x : Row A}
    (hx : x ∈ (OpSet.seekOpsByIndex t (tx.ops.rows obj) index).ops) :
    FoundOn (.seq x.cursor) (OpSet.seekOpsByIndex t (tx.ops.rows obj) index).ops :=
  have hrows := h.seqRows hplain ht hseq
  hrows.foundOn (h.represents.nodup obj) (h.seqKeys ht hseq)
    (OpSet.seekOps_sublist t (tx.ops.rows obj) index).1 fun _ hr =>
      cursor_seekOps hrows (fun htext => (h.detailed hplain).text obj (htext ▸ ht)) hr hx

theorem localMapOp (ht : (tx.log base).MadeAs obj .map) (prop : String) {action : OpType}
    (ha : action.isMark = false) (hmake : action ≠ .make .table) :
    Advances base tx (tx.localMapOp obj prop action).1 :=
  h.localOp ht ⟨0, OpSet.visibleAtKey (tx.ops.rows obj) prop, keyEnd (tx.ops.rows obj) prop⟩
    List.filter_sublist ha hmake (fun hplain => h.foundOn_visibleAtKey hplain ht prop)
    (fun _ _ ha => ⟨⟨prop, rfl⟩, rfl, ha⟩)
    (fun p hp r hr => by
      cases hp
      exact (of_decide_eq_true (List.mem_filter.mp hr).2).2) nofun fun _ _ _ => rfl

theorem localListOp (ht : (tx.log base).MadeAs obj t) (hseq : t.isSequence = true) (index : ℕ)
    {action : OpType} (ha : action.isMark = false) (hmake : action ≠ .make .table) :
    Advances base tx (tx.localListOp obj t index action).1 := by
  obtain ⟨hsub, hmarks⟩ := OpSet.seekOps_sublist t (tx.ops.rows obj) index
  unfold Tx.localListOp
  dsimp only
  split
  · exact .refl h
  · rename_i first hfirst
    have hfirst := List.mem_of_head? hfirst
    obtain ⟨e, hcur, q, hq, hid, hobj, hins, hm⟩ := h.element ht hseq (hsub.subset hfirst)
      fun htext => hmarks htext first hfirst
    have hlocal : Advances base tx (tx.localOp obj (.seq first.cursor)
        (OpSet.seekOpsByIndex t (tx.ops.rows obj) index) action).1 := by
      refine h.localOp ht _ hsub ha hmake
        (fun hplain => h.foundOn_seekOps hplain ht hseq hfirst) (fun action pred ha => Op.suits_of_seq hseq ?_)
        nofun (fun e' he' => ?_) fun hplain _ _ => ?_
      · refine ⟨⟨_, rfl⟩, nofun, fun _ => ⟨ha, ?_⟩⟩
        rw [hcur]
        nofun
      · rw [hcur] at he'
        cases he'
        exact ⟨q, hq, hid, hobj, hins, hm⟩
      · exact ends_seekOps (h.seqRows hplain ht hseq)
          (fun htext => (h.detailed hplain).text obj (htext ▸ ht)) hfirst
    split
    · rename_i tx' id ops heq
      rw [heq] at hlocal
      refine hlocal.trans ?_
      unfold exposeCounter
      split
      · split
        · split
          · exact ⟨hlocal.logged.expose _ _, subset_rfl, rfl, rfl⟩
          · exact .refl hlocal.logged
        · exact .refl hlocal.logged
      · exact .refl hlocal.logged
    · rename_i tx' e heq
      rwa [heq] at hlocal

theorem localObjOp (ht : (tx.log base).MadeAs obj t) (prop : ObjProp) {action : OpType}
    (ha : action.isMark = false) (hmake : action ≠ .make .table)
    (hkey : t.isSequence = true → ∀ p, prop = .map p → action.isSetOrMake = false) :
    Advances base tx (tx.localObjOp obj t prop action).1 := by
  unfold Tx.localObjOp
  cases prop with
  | map p =>
    cases hseq : t.isSequence with
    | true =>
      rw [localMapOp_list (h.seqKeys ht hseq) p ha (hkey hseq p rfl)]
      exact .refl h
    | false =>
      cases t with
      | map => exact h.localMapOp ht p ha hmake
      | table => exact absurd ht h.wf.no_table
      | list | text => cases hseq
  | seq i =>
    dsimp only
    split
    · exact h.localListOp ht ‹_› i ha hmake
    · exact .refl h

/-! ## Insertions -/

/-- An insertion behind an element that is there. -/
theorem insertion (ht : (tx.log base).MadeAs obj t) (hseq : t.isSequence = true) {e : ElemId A}
    {action : OpType} (hmake : action ≠ .make .table)
    (ha : action.isSetOrMake = true ∨ t = .text ∧ action.isMark = true)
    (helem : ∀ id, e = some id → ∃ q ∈ tx.log base, q.1 = id ∧ q.2.obj = obj ∧ q.2.insert = true)
    (hplace : (Insert.insert (tx.nextId, ⟨obj, .seq e, true, action, []⟩) (tx.log base)).Plain →
      EndsAt (tx.ops.rows obj) pos e) :
    Advances base tx (tx.splice pos ⟨obj, .seq e, true, action, []⟩) := by
  rw [← issue_of_pred_nil rfl]
  refine h.advances ⟨h.rooted ht (Op.suits_of_seq hseq ⟨⟨e, rfl⟩, fun _ => ha, nofun⟩)
    (fun id hid => ?_) nofun List.nodup_nil hmake
    fun _ => ⟨nofun, List.Pairwise.nil, fun _ => rfl, fun hdel => ?_⟩, fun hplain _ => hplace hplain⟩
  swap
  · -- a deletion is no insertion
    have hdel : action = .delete := hdel
    subst hdel
    rcases ha with ha | ⟨-, ha⟩ <;> cases ha
  obtain ⟨q, hq, rfl, hobj, hins⟩ := helem id (Key.seq.inj hid)
  exact ⟨q, hq, rfl, hobj, hins, nofun⟩

/-- What `query_insert_at` names is there. -/
theorem insertAt_known (ht : (tx.log base).MadeAs obj t) (hseq : t.isSequence = true) {index : ℕ}
    {query : QueryNth A} (hq : queryInsertAt t (tx.ops.rows obj) index = some query) :
    ∀ id, query.elemid = some id → ∃ q ∈ tx.log base, q.1 = id ∧ q.2.obj = obj ∧ q.2.insert = true := by
  intro id hid
  rcases queryInsertAt_names hq with hnone | ⟨r, hr, hcur⟩
  · rw [hid] at hnone
    cases hnone
  · obtain ⟨e, hcur', -, q, hq, hqid, hobj, hins, -⟩ := h.represents.cursor h.wf ht hseq hr
    rw [hcur', hid] at hcur
    cases hcur
    exact ⟨q, hq, hqid, hobj, hins⟩

theorem insertAt_ends (hplain : (tx.log base).Plain) (ht : (tx.log base).MadeAs obj t)
    (hseq : t.isSequence = true) {index : ℕ} {query : QueryNth A}
    (hq : queryInsertAt t (tx.ops.rows obj) index = some query) :
    EndsAt (tx.ops.rows obj) query.pos query.elemid :=
  have hrows := h.seqRows hplain ht hseq
  ends_queryInsertAt hrows (h.represents.loneMarks h.wf ht hseq hrows) (h.seq_plain hplain ht hseq) hq

theorem doInsert (ht : (tx.log base).MadeAs obj t) (hseq : t.isSequence = true) (index : ℕ)
    {action : OpType} (hmake : action ≠ .make .table)
    (ha : action.isSetOrMake = true ∨ t = .text ∧ action.isMark = true) :
    Advances base tx (tx.doInsert obj t index action).1 := by
  unfold Tx.doInsert
  split
  · exact .refl h
  · rename_i query hq
    exact h.insertion ht hseq hmake ha (h.insertAt_known ht hseq hq)
      fun hplain => h.insertAt_ends (hplain.mono (Set.subset_insert _ _)) ht hseq hq

omit h in
/-- Behind a new element goes the next one. -/
theorem ends_splice {e : ElemId A} {action : OpType} (hdel : action ≠ .delete)
    (hends : EndsAt (tx.ops.rows obj) pos e) :
    EndsAt ((tx.splice pos ⟨obj, .seq e, true, action, []⟩).ops.rows obj) (pos + 1)
      (some tx.nextId) := by
  have hrows : (tx.splice pos ⟨obj, .seq e, true, action, []⟩).ops.rows obj =
      ((tx.ops.rows obj).take pos ++ [row tx.nextId ⟨obj, .seq e, true, action, []⟩]) ++
        (tx.ops.rows obj).drop pos := by
    have hsplice := rows_splice tx pos ⟨obj, .seq e, true, action, []⟩
    rwa [if_neg hdel] at hsplice
  have hlast : behind ((tx.ops.rows obj).take pos ++
      [row tx.nextId ⟨obj, .seq e, true, action, []⟩]) = some tx.nextId := by
    unfold behind
    rw [List.getLast?_concat]
    rfl
  rw [hrows]
  rcases le_total pos (tx.ops.rows obj).length with hle | hle
  · have hlen : ((tx.ops.rows obj).take pos ++
        [row tx.nextId ⟨obj, .seq e, true, action, []⟩]).length = pos + 1 := by
      rw [List.length_append, List.length_take, min_eq_left hle]
      rfl
    exact ⟨by rw [List.drop_left' hlen]; exact hends.next, by rw [List.take_left' hlen]; exact hlast⟩
  · rw [List.drop_eq_nil_of_le hle, List.append_nil]
    have hlen : ((tx.ops.rows obj).take pos ++
        [row tx.nextId ⟨obj, .seq e, true, action, []⟩]).length ≤ pos + 1 := by
      rw [List.length_append, List.length_take]
      exact Nat.succ_le_succ (min_le_left _ _)
    refine ⟨fun x hx => ?_, by rw [List.take_of_length_le hlen]; exact hlast⟩
    rw [List.drop_eq_nil_of_le hlen] at hx
    cases hx

omit h in
theorem insertChars (chars : List Char) : ∀ {tx : Tx A} {pos : ℕ} {e : ElemId A}, tx.Logged base →
    (tx.log base).MadeAs obj .text →
    (∀ id, e = some id → ∃ q ∈ tx.log base, q.1 = id ∧ q.2.obj = obj ∧ q.2.insert = true) →
    ((tx.log base).Plain → EndsAt (tx.ops.rows obj) pos e) →
    Advances base tx (tx.insertChars obj pos e chars) := by
  induction chars with
  | nil => exact fun h _ _ _ => .refl h
  | cons c chars ih =>
    intro tx pos e h ht helem hends
    have hstep : Advances base tx
        (tx.splice pos ⟨obj, .seq e, true, .put (.str (String.ofList [c])), []⟩) :=
      h.insertion ht rfl nofun (Or.inl rfl) helem fun hplain => hends (hplain.mono (Set.subset_insert _ _))
    refine hstep.trans (ih hstep.logged (ht.mono hstep.grows) (fun id hid => ?_) fun hplain =>
      ends_splice nofun (hends (hplain.mono hstep.grows)))
    cases hid
    refine ⟨(tx.nextId, ⟨obj, .seq e, true, .put (.str (String.ofList [c])), []⟩), ?_, rfl, rfl, rfl⟩
    rw [← issue_of_pred_nil rfl, log_issue]
    exact Or.inl rfl

omit h in
theorem deleteChars (fuel : ℕ) : ∀ {tx : Tx A} (index deleted del : ℕ), tx.Logged base →
    (tx.log base).MadeAs obj .text →
    Advances base tx (Tx.deleteChars obj fuel tx index deleted del) := by
  induction fuel with
  | zero => exact fun _ _ _ h _ => .refl h
  | succ fuel ih =>
    intro tx index deleted del h ht
    obtain ⟨hsub, hmarks⟩ := OpSet.seekTextOps_sublist (tx.ops.rows obj) index
    unfold Tx.deleteChars
    split
    · exact .refl h
    · dsimp only
      split
      · exact .refl h
      · rename_i last hlast
        have hlast := List.mem_of_getLast? hlast
        split
        · exact ih _ _ _ h ht
        · obtain ⟨e, hcur, hq⟩ := h.element ht rfl (hsub.subset hlast) fun _ => hmarks last hlast
          have hstep := h.update (OpSet.seekTextOpsByIndex (tx.ops.rows obj) index).endPos ht
            (.seq last.cursor) .delete hsub nofun
            (fun hplain => h.foundOn_seekOps hplain ht rfl hlast) (fun _ => List.ne_nil_of_mem hlast)
            ⟨⟨_, rfl⟩, nofun, fun _ => ⟨rfl, by rw [hcur]; nofun⟩⟩ nofun (fun e' he' => ?_) fun hplain =>
              ends_seekTextOps (h.seqRows hplain ht rfl) ((h.detailed hplain).text obj ht) hlast
          · exact hstep.trans (ih _ _ _ hstep.logged (ht.mono hstep.grows))
          · rw [hcur] at he'
            cases he'
            exact hq

theorem innerSplice (ht : (tx.log base).MadeAs obj .text) (index del : ℕ) (text : String) :
    Advances base tx (tx.innerSplice obj index del text).1 := by
  unfold Tx.innerSplice
  split
  · exact deleteChars _ _ _ _ h ht
  · split
    · exact .refl h
    · rename_i query hq
      have hchars := insertChars (text.toList) h ht (h.insertAt_known ht rfl hq)
        fun hplain => h.insertAt_ends hplain ht rfl hq
      rename_i c chars htext _
      rw [htext] at hchars
      exact hchars.trans (deleteChars _ _ _ _ hchars.logged (ht.mono hchars.grows))

end Logged

/-! ## Calls -/

/-- Whatever a call does, the columns record the longer log. -/
theorem advances_invariant : CallInvariant fun tx' : Tx A => Advances base tx tx' where
  fresh h := h.logged.fresh
  localObjOp h ht prop _ ha hmake hkey :=
    h.trans (h.logged.localObjOp ((h.logged.represents.objectType h.logged.wf).mp ht) prop ha hmake hkey)
  doInsert h ht hseq index _ hmake ha :=
    h.trans (h.logged.doInsert ((h.logged.represents.objectType h.logged.wf).mp ht) hseq index hmake ha)
  innerSplice h ht index del text :=
    h.trans (h.logged.innerSplice ((h.logged.represents.objectType h.logged.wf).mp ht) index del text)

theorem advances_call (h : tx.Logged base) (c : Call A) : Advances base tx (tx.call c) :=
  holds_call advances_invariant (.refl h) c

end Tx

end AutomergeR
