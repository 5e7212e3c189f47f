import AutomergeR.Marks
import AutomergeR.Slots

/-! # Every call keeps a transaction sound

A call of the library writes the rows of one object, and if this is a list it keeps them
in order. The calls of the package are put together from these, so whatever sequence of
them a script makes from a sound transaction, the next call finds one.
-/

namespace AutomergeR

variable {A : Type} [LinearOrder A]

namespace Tx

/-! ## The other objects -/

section

variable {obj o : ObjId A}

theorem rows_localOp_ne (ho : o ≠ obj) (tx : Tx A) (key : Key A) (found : OpSet.OpsFound A)
    (action : OpType) : (tx.localOp obj key found action).1.ops.rows o = tx.ops.rows o := by
  unfold localOp
  split
  · rfl
  · split
    · rfl
    · show (addSuccs _ obj _ _).ops.rows o = _
      unfold addSuccs
      rw [rows_setRows_ne _ _ ho]
      exact rows_splice_ne tx _ _ ho

theorem rows_exposeCounter_ne (ho : o ≠ obj) (tx : Tx A) (action : OpType) (ops : List (Row A)) :
    (tx.exposeCounter obj action ops).ops.rows o = tx.ops.rows o := by
  unfold exposeCounter
  split
  · split
    · split
      · exact rows_setRows_ne tx _ ho
      · rfl
    · rfl
  · rfl

theorem rows_localListOp_ne (ho : o ≠ obj) (tx : Tx A) (objType : ObjType) (index : ℕ)
    (action : OpType) : (tx.localListOp obj objType index action).1.ops.rows o = tx.ops.rows o := by
  unfold localListOp
  dsimp only
  split
  · rfl
  · rename_i first _
    have hlocal := rows_localOp_ne ho tx (.seq first.cursor)
      (OpSet.seekOpsByIndex objType (tx.ops.rows obj) index) action
    split
    · rename_i heq
      rw [heq] at hlocal
      exact (rows_exposeCounter_ne ho _ _ _).trans hlocal
    · rename_i heq
      rw [heq] at hlocal
      exact hlocal

theorem rows_localObjOp_ne (ho : o ≠ obj) (tx : Tx A) (objType : ObjType) (prop : ObjProp)
    (action : OpType) : (tx.localObjOp obj objType prop action).1.ops.rows o = tx.ops.rows o := by
  cases prop with
  | map p => exact rows_localOp_ne ho tx _ _ action
  | seq i =>
    unfold localObjOp
    dsimp only
    split
    · exact rows_localListOp_ne ho tx objType i action
    · rfl

theorem rows_doInsert_ne (ho : o ≠ obj) (tx : Tx A) (objType : ObjType) (index : ℕ)
    (action : OpType) : (tx.doInsert obj objType index action).1.ops.rows o = tx.ops.rows o := by
  unfold doInsert
  split
  · rfl
  · exact rows_splice_ne tx _ _ ho

theorem rows_insertChars_ne (ho : o ≠ obj) (chars : List Char) :
    ∀ (tx : Tx A) (pos : ℕ) (elemid : ElemId A),
      (tx.insertChars obj pos elemid chars).ops.rows o = tx.ops.rows o := by
  induction chars with
  | nil => exact fun _ _ _ => rfl
  | cons c chars ih =>
    intro tx pos elemid
    unfold insertChars
    rw [ih]
    exact rows_splice_ne tx _ _ ho

theorem rows_deleteChars_ne (ho : o ≠ obj) (fuel : ℕ) :
    ∀ (tx : Tx A) (index deleted del : ℕ),
      (deleteChars obj fuel tx index deleted del).ops.rows o = tx.ops.rows o := by
  induction fuel with
  | zero => exact fun _ _ _ _ => rfl
  | succ fuel ih =>
    intro tx index deleted del
    unfold deleteChars
    split
    · rfl
    · dsimp only
      split
      · rfl
      · split
        · exact ih _ _ _ _
        · rw [ih]
          show (addSuccs _ obj _ _).ops.rows o = _
          unfold addSuccs
          rw [rows_setRows_ne _ _ ho]
          exact rows_splice_ne tx _ _ ho

theorem rows_innerSplice_ne (ho : o ≠ obj) (tx : Tx A) (index del : ℕ) (text : String) :
    (tx.innerSplice obj index del text).1.ops.rows o = tx.ops.rows o := by
  unfold innerSplice
  split
  · exact rows_deleteChars_ne ho _ _ _ _ _
  · split
    · rfl
    · exact (rows_deleteChars_ne ho _ _ _ _ _).trans (rows_insertChars_ne ho _ _ _ _)

end

/-! ## What is kept of a document -/

/-- What the writing calls of the library keep, and with them the calls of the package. No
call of the package makes a table, a key of a sequence is never put, and marks go into texts. -/
structure CallInvariant (J : Tx A → Prop) : Prop where
  fresh : ∀ {tx : Tx A}, J tx → tx.Fresh
  localObjOp : ∀ {tx : Tx A} {obj : ObjId A} {t : ObjType}, J tx →
    tx.ops.objectType obj = some t → ∀ (prop : ObjProp) {action : OpType}, action.isMark = false →
      action ≠ .make .table →
        (t.isSequence = true → ∀ p, prop = .map p → action.isSetOrMake = false) →
          J (tx.localObjOp obj t prop action).1
  doInsert : ∀ {tx : Tx A} {obj : ObjId A} {t : ObjType}, J tx →
    tx.ops.objectType obj = some t → t.isSequence = true → ∀ (index : ℕ) {action : OpType},
      action ≠ .make .table → (action.isSetOrMake = true ∨ t = .text ∧ action.isMark = true) →
        J (tx.doInsert obj t index action).1
  innerSplice : ∀ {tx : Tx A} {obj : ObjId A}, J tx → tx.ops.objectType obj = some .text →
    ∀ (index del : ℕ) (text : String), J (tx.innerSplice obj index del text).1

section

variable {J : Tx A → Prop} (hJ : CallInvariant J) {tx : Tx A}

include hJ

/-! ### The calls of the library -/

theorem holds_put (h : J tx) (obj : ObjId A) (prop : ObjProp) (v : ScalarValue) :
    J (tx.put obj prop v).1 := by
  unfold put objMeta
  split
  · exact h
  · exact hJ.localObjOp h ‹_› _ rfl nofun (fun ht => by cases ht)
  · exact hJ.localObjOp h ‹_› _ rfl nofun (fun _ p hp => by cases hp)
  · exact hJ.localObjOp h ‹_› _ rfl nofun (fun _ p hp => by cases hp)
  · exact h

theorem holds_putObject (h : J tx) (obj : ObjId A) (prop : ObjProp) {t : ObjType}
    (ht : t ≠ .table) : J (tx.putObject obj prop t).1 := by
  have hmake : OpType.make t ≠ .make .table := fun heq => ht (OpType.make.inj heq)
  unfold putObject objMeta
  split
  · exact h
  · exact hJ.localObjOp h ‹_› _ rfl hmake (fun ht => by cases ht)
  · exact hJ.localObjOp h ‹_› _ rfl hmake (fun _ p hp => by cases hp)
  · exact h

theorem holds_increment (h : J tx) (obj : ObjId A) (prop : ObjProp) (n : ℤ) :
    J (tx.increment obj prop n).1 := by
  unfold increment objMeta
  split
  · exact h
  · exact hJ.localObjOp h ‹_› _ rfl nofun (fun _ _ _ => rfl)

theorem holds_insert (h : J tx) (obj : ObjId A) (index : ℕ) {action : OpType}
    (hmake : action ≠ .make .table) (ha : action.isSetOrMake = true) :
    J (tx.insert obj index action).1 := by
  unfold insert objMeta
  split
  · exact h
  · split
    · exact hJ.doInsert h ‹_› ‹_› index hmake (Or.inl ha)
    · exact h

theorem holds_spliceText (h : J tx) (obj : ObjId A) (index del : ℕ) (text : String) :
    J (tx.spliceText obj index del text).1 := by
  unfold spliceText objMeta
  split
  · exact h
  · exact hJ.innerSplice h ‹_› index del text
  · exact h

theorem holds_delete (h : J tx) (obj : ObjId A) (prop : ObjProp) :
    J (tx.delete obj prop).1 := by
  unfold delete objMeta
  split
  · exact h
  · exact hJ.innerSplice h ‹_› _ 1 ""
  · exact h
  · exact hJ.localObjOp h ‹_› _ rfl nofun (fun _ _ _ => rfl)

theorem holds_mark (h : J tx) (obj : ObjId A) (start stop : ℕ) (name : String)
    (value : ScalarValue) (expand : ExpandMark) :
    J (tx.mark obj start stop name value expand).1 := by
  unfold mark objMeta
  split
  · rename_i ht
    split
    · exact h
    · have hbegin : J (tx.doInsert obj .text start (.markBegin expand.before name value)).1 :=
        hJ.doInsert h ht rfl start nofun (Or.inr ⟨rfl, rfl⟩)
      have hw := writes_doInsert .text start (.markBegin expand.before name value) ((hJ.fresh h).made ht)
      split
      · rename_i heq
        rw [heq] at hbegin
        exact hbegin
      · rename_i tx₁ id heq
        rw [heq] at hbegin hw
        have ht₁ := (hw.objectType obj ((hJ.fresh h).made ht)).trans ht
        exact hJ.doInsert hbegin ht₁ rfl stop nofun (Or.inr ⟨rfl, rfl⟩)
  · exact h
  · exact h

/-! ### The calls of the package -/

omit [LinearOrder A] hJ in
theorem holds_lift {α : Type} {reply : Reply A OpError α} (h : J reply.1) :
    J (lift reply).1 := by
  rwa [lift_fst]

theorem holds_putProp (h : J tx) (obj : ObjId A) (prop : ObjProp) {item : Item}
    (hitem : item ≠ .object .table) : J (tx.putProp obj prop item).1 := by
  unfold putProp
  split
  · exact holds_lift (holds_put hJ h obj prop _)
  · split
    · exact holds_lift (holds_put hJ h obj prop _)
    · exact h
  · exact holds_lift (holds_putObject hJ h obj prop fun ht => hitem (ht ▸ rfl))

theorem holds_insertItem (h : J tx) (obj : ObjId A) (index : ℕ) {item : Item}
    (hitem : item ≠ .object .table) : J (tx.insertItem obj index item).1 := by
  unfold insertItem
  split
  · exact holds_lift (holds_insert hJ h obj index nofun rfl)
  · split
    · exact holds_lift (holds_insert hJ h obj index nofun rfl)
    · exact h
  · refine holds_lift (holds_insert hJ h obj index (fun ht => hitem ?_) rfl)
    rw [OpType.make.inj ht]

theorem holds_putItem (h : J tx) (obj : ObjId A) (slot : Slot) {item : Item}
    (hitem : item ≠ .object .table) : J (tx.putItem obj slot item).1 := by
  unfold putItem
  split
  · split
    · exact holds_putProp hJ h obj _ hitem
    · exact h
  · split
    · exact h
    · exact holds_insertItem hJ h obj _ hitem
    · exact holds_putProp hJ h obj _ hitem

theorem holds_amSpliceText (h : J tx) (obj : ObjId A) (pos del : ℕ) (text : RString) :
    J (tx.amSpliceText obj pos del text).1 := by
  unfold amSpliceText
  split
  · exact h
  · split
    · exact holds_lift (holds_spliceText hJ h obj pos del _)
    · exact h

omit [LinearOrder A] hJ in
/-- No value becomes a table. -/
theorem encoding_table {v : RValue} : encoding v ≠ .item (.object .table) ∧
    encoding v ≠ .object .table := by
  refine ⟨fun h => ?_, fun h => ?_⟩
  · unfold encoding at h
    repeat' split at h
    all_goals cases h
  · rcases encoding_object h with h | h <;> cases h

theorem holds_beginPut (h : J tx) (obj : ObjId A) (key : RValue) (isMap : Bool)
    (value : RValue) (forceInsert : Bool) :
    J (tx.beginPut obj key isMap value forceInsert).1 := by
  unfold beginPut
  split
  · exact h
  · rename_i sl _
    split
    · exact h
    · rename_i henc
      exact holds_putItem hJ h obj sl fun ht => encoding_table.1 (ht ▸ henc)
    · rename_i henc
      exact holds_putItem hJ h obj sl fun ht => encoding_table.2 (Item.object.inj ht ▸ henc)
    · have hput := holds_putItem hJ h obj sl (show Item.object .text ≠ .object .table from nofun)
      split
      · rename_i heq
        rw [heq] at hput
        exact hput
      · rename_i heq
        rw [heq] at hput
        split
        · exact hput
        · exact holds_amSpliceText hJ hput _ 0 0 _

set_option linter.unusedSectionVars false in
mutual

theorem holds_putValue (value : RValue) :
    ∀ {tx : Tx A}, J tx → ∀ (obj : ObjId A) (key : RValue) (isMap forceInsert : Bool),
      J (tx.putValue obj key isMap forceInsert value).1 := by
  intro tx h obj key isMap forceInsert
  have hbegin := holds_beginPut hJ h obj key isMap value forceInsert
  match value with
  | .list cls xs =>
    unfold putValue
    split
    · rename_i heq
      rw [heq] at hbegin
      exact holds_populateList xs hbegin _
    · rename_i heq
      rw [heq] at hbegin
      exact hbegin
  | .namedList cls xs =>
    unfold putValue
    split
    · rename_i heq
      rw [heq] at hbegin
      exact holds_populateMap xs hbegin _
    · rename_i heq
      rw [heq] at hbegin
      exact hbegin
  | .null | .logical .. | .integer .. | .double .. | .character .. | .raw .. | .other .. =>
    unfold putValue
    exact hbegin

theorem holds_populateList (xs : List RValue) :
    ∀ {tx : Tx A}, J tx → ∀ obj : ObjId A, J (tx.populateList obj xs).1 := by
  intro tx h obj
  match xs with
  | [] => exact h
  | x :: xs =>
    have hput := holds_putValue x h obj endMarker false false
    unfold populateList
    split
    · rename_i heq
      rw [heq] at hput
      exact holds_populateList xs hput obj
    · rename_i heq
      rw [heq] at hput
      exact hput

theorem holds_populateMap (xs : List (RString × RValue)) :
    ∀ {tx : Tx A}, J tx → ∀ obj : ObjId A, J (tx.populateMap obj xs).1 := by
  intro tx h obj
  match xs with
  | [] => exact h
  | (name, x) :: xs =>
    have hput := holds_putValue x h obj (.character [] [name]) true false
    unfold populateMap
    split
    · rename_i heq
      rw [heq] at hput
      exact holds_populateMap xs hput obj
    · rename_i heq
      rw [heq] at hput
      exact hput

end

theorem holds_amPut (h : J tx) (obj : ObjId A) (key value : RValue) :
    J (tx.amPut obj key value).1 := holds_putValue hJ value h obj key _ false

theorem holds_amInsert (h : J tx) (obj : ObjId A) (pos value : RValue) :
    J (tx.amInsert obj pos value).1 := by
  unfold amInsert
  split
  · exact holds_putValue hJ value h obj pos false true
  · exact h

omit hJ in
/-- `am_delete` raises an error before the document is asked, or asks it to delete. -/
theorem amDelete_cases (tx : Tx A) (obj : ObjId A) (key : RValue) :
    (∃ e, tx.amDelete obj key = (tx, .error e)) ∨
      ∃ prop, tx.amDelete obj key = lift (tx.delete obj prop) := by
  unfold amDelete
  split
  · split
    · exact Or.inr ⟨_, rfl⟩
    · exact Or.inl ⟨_, rfl⟩
  · split
    · exact Or.inl ⟨_, rfl⟩
    · split
      · exact Or.inl ⟨_, rfl⟩
      · split
        · exact Or.inl ⟨_, rfl⟩
        · exact Or.inr ⟨_, rfl⟩
  · split
    · exact Or.inl ⟨_, rfl⟩
    · split
      · exact Or.inl ⟨_, rfl⟩
      · split
        · exact Or.inl ⟨_, rfl⟩
        · exact Or.inr ⟨_, rfl⟩
  · exact Or.inl ⟨_, rfl⟩

theorem holds_amDelete (h : J tx) (obj : ObjId A) (key : RValue) :
    J (tx.amDelete obj key).1 := by
  rcases amDelete_cases tx obj key with ⟨e, hcall⟩ | ⟨prop, hcall⟩
  · rw [hcall]
    exact h
  · rw [hcall]
    exact holds_lift (holds_delete hJ h obj prop)

theorem holds_amCounterIncrement (h : J tx) (obj : ObjId A) (key delta : RValue) :
    J (tx.amCounterIncrement obj key delta).1 := by
  unfold amCounterIncrement
  split
  · exact h
  · split
    · exact h
    · split
      · split
        · split
          · exact holds_lift (holds_increment hJ h obj _ _)
          · exact h
        · exact h
      · split
        · split
          · exact h
          · split
            · exact h
            · split
              · exact h
              · split
                · exact h
                · exact holds_lift (holds_increment hJ h obj _ _)
        · exact h

theorem holds_amTextSplice (h : J tx) (obj : ObjId A) (pos delCount text : RValue) :
    J (tx.amTextSplice obj pos delCount text).1 := by
  unfold amTextSplice
  split
  · exact h
  · split
    · exact h
    · split
      · split
        · exact h
        · split
          · exact h
          · exact holds_amSpliceText hJ h obj _ _ _
      · exact h

theorem holds_amMarkCreate (h : J tx) (obj : ObjId A)
    (start stop name value expand : RValue) :
    J (tx.amMarkCreate obj start stop name value expand).1 := by
  unfold amMarkCreate
  split
  · exact h
  · exact h
  · split
    · exact h
    · split
      · split
        · exact h
        · exact h
        · unfold markCreate
          split
          · exact h
          · exact h
          · exact holds_lift (holds_mark hJ h obj _ _ _ _ _)
      · exact h

end

/-! ## Runs -/

/-- A call of the package that writes to the document. -/
inductive Call (A : Type) where
  | put (obj : ObjId A) (key value : RValue)
  | insert (obj : ObjId A) (pos value : RValue)
  | delete (obj : ObjId A) (key : RValue)
  | counterIncrement (obj : ObjId A) (key delta : RValue)
  | textSplice (obj : ObjId A) (pos delCount text : RValue)
  | markCreate (obj : ObjId A) (start stop name value expand : RValue)

/-- The document after a call, whether it returned or raised an error. -/
def call (tx : Tx A) : Call A → Tx A
  | .put obj key value => (tx.amPut obj key value).1
  | .insert obj pos value => (tx.amInsert obj pos value).1
  | .delete obj key => (tx.amDelete obj key).1
  | .counterIncrement obj key delta => (tx.amCounterIncrement obj key delta).1
  | .textSplice obj pos delCount text => (tx.amTextSplice obj pos delCount text).1
  | .markCreate obj start stop name value expand =>
    (tx.amMarkCreate obj start stop name value expand).1

section

variable {J : Tx A → Prop} (hJ : CallInvariant J) {tx : Tx A}

include hJ

theorem holds_call (h : J tx) (c : Call A) : J (tx.call c) := by
  cases c with
  | put obj key value => exact holds_amPut hJ h obj key value
  | insert obj pos value => exact holds_amInsert hJ h obj pos value
  | delete obj key => exact holds_amDelete hJ h obj key
  | counterIncrement obj key delta => exact holds_amCounterIncrement hJ h obj key delta
  | textSplice obj pos delCount text => exact holds_amTextSplice hJ h obj pos delCount text
  | markCreate obj start stop name value expand =>
    exact holds_amMarkCreate hJ h obj start stop name value expand

theorem holds_calls (h : J tx) (calls : List (Call A)) : J (calls.foldl call tx) := by
  induction calls using List.reverseRecOn with
  | nil => exact h
  | append_singleton calls c ih =>
    rw [List.foldl_append]
    exact holds_call hJ ih c

end

/-! ## What is kept of the rows -/

/-- What the calls of the library keep of the rows of an object, given its type. -/
structure RowsInvariant (I : ObjId A → ObjType → List (Row A) → Prop) : Prop where
  nil : ∀ obj t, I obj t []
  mapOp : ∀ {tx : Tx A} {obj : ObjId A} {t : ObjType}, tx.Fresh → tx.Made obj →
    I obj t (tx.ops.rows obj) → ∀ (prop : String) {action : OpType}, action.isMark = false →
      (t = .list → action.isSetOrMake = false) →
        I obj t ((tx.localMapOp obj prop action).1.ops.rows obj)
  listOp : ∀ {tx : Tx A} {obj : ObjId A} {t : ObjType}, tx.Fresh → tx.Made obj →
    I obj t (tx.ops.rows obj) → t.isSequence = true → ∀ (n : ℕ) {action : OpType},
      action.isMark = false → I obj t ((tx.localListOp obj t n action).1.ops.rows obj)
  insert : ∀ {tx : Tx A} {obj : ObjId A} {t : ObjType}, tx.Fresh → tx.Made obj →
    I obj t (tx.ops.rows obj) → t.isSequence = true → ∀ (index : ℕ) {action : OpType},
      (t = .list → action.isSetOrMake = true) →
        I obj t ((tx.doInsert obj t index action).1.ops.rows obj)
  splice : ∀ {tx : Tx A} {obj : ObjId A}, tx.Fresh → tx.Made obj →
    I obj .text (tx.ops.rows obj) → ∀ (index del : ℕ) (text : String),
      I obj .text ((tx.innerSplice obj index del text).1.ops.rows obj)

/-- What `I` says, of one object alone. -/
def Only (obj : ObjId A) (I : ObjId A → ObjType → List (Row A) → Prop) (o : ObjId A) (t : ObjType)
    (rows : List (Row A)) : Prop :=
  o = obj → I o t rows

theorem RowsInvariant.only {I : ObjId A → ObjType → List (Row A) → Prop} (hI : RowsInvariant I)
    (obj : ObjId A) : RowsInvariant (Only obj I) where
  nil o t _ := hI.nil o t
  mapOp hf hm h prop _ hmark hlist heq := hI.mapOp hf hm (h heq) prop hmark hlist
  listOp hf hm h hseq n _ hmark heq := hI.listOp hf hm (h heq) hseq n hmark
  insert hf hm h hseq index _ haction heq := hI.insert hf hm (h heq) hseq index haction
  splice hf hm h index del text heq := hI.splice hf hm (h heq) index del text

/-- A transaction whose ids are in order, with rows as `I` says. -/
structure Keeps (I : ObjId A → ObjType → List (Row A) → Prop) (tx : Tx A) : Prop
    extends Fresh tx where
  kept : ∀ obj t, tx.ops.objectType obj = some t → I obj t (tx.ops.rows obj)

section

variable {I : ObjId A → ObjType → List (Row A) → Prop} (hI : RowsInvariant I) {tx : Tx A}

include hI

theorem keeps_new (actor : A) : (Tx.new actor).Keeps I where
  toFresh := fresh_new actor
  kept obj t _ := hI.nil obj t

/-- To write one object, and to keep what is said of its rows, is all it takes. -/
theorem Keeps.step (h : tx.Keeps I) {tx' : Tx A} {obj : ObjId A} {t : ObjType}
    (ht : tx.ops.objectType obj = some t) (hw : Writes obj tx tx')
    (hne : ∀ o, o ≠ obj → tx'.ops.rows o = tx.ops.rows o) (hkept : I obj t (tx'.ops.rows obj)) :
    tx'.Keeps I where
  toFresh := hw.fresh h.toFresh
  kept o t' ho := by
    have hm := h.made ht
    by_cases hob : o = obj
    · subst hob
      rw [hw.objectType o hm, ht] at ho
      cases ho
      exact hkept
    · rw [hne o hob]
      by_cases hmade : tx.Made o
      · rw [hw.objectType o hmade] at ho
        exact h.kept o t' ho
      · rw [h.rows o hmade]
        exact hI.nil o t'

/-- A call of the library writes one object, so it keeps what is kept of the rows. -/
theorem keeps_invariant : CallInvariant (A := A) (Keeps I) where
  fresh h := h.toFresh
  localObjOp {tx obj t} h ht prop action ha _ hkey := by
    refine h.step hI ht (writes_localObjOp t prop action (h.made ht))
      (fun o ho => rows_localObjOp_ne ho tx t prop action) ?_
    have hrows := h.kept obj t ht
    cases prop with
    | map p => exact hI.mapOp h.toFresh (h.made ht) hrows p ha fun hl => hkey (hl ▸ rfl) p rfl
    | seq i =>
      unfold Tx.localObjOp
      dsimp only
      split
      · exact hI.listOp h.toFresh (h.made ht) hrows ‹_› i ha
      · exact hrows
  doInsert {tx obj t} h ht hseq index action _ ha :=
    h.step hI ht (writes_doInsert t index action (h.made ht))
      (fun _ ho => rows_doInsert_ne ho tx t index action)
      (hI.insert h.toFresh (h.made ht) (h.kept obj t ht) hseq index fun hl =>
        ha.resolve_right fun htext => by
          rw [hl] at htext
          cases htext.1)
  innerSplice {tx obj} h ht index del text :=
    h.step hI ht (writes_innerSplice index del text (h.made ht))
      (fun _ ho => rows_innerSplice_ne ho tx index del text)
      (hI.splice h.toFresh (h.made ht) (h.kept obj .text ht) index del text)

theorem keeps_call (h : tx.Keeps I) (c : Call A) : (tx.call c).Keeps I :=
  holds_call (keeps_invariant hI) h c

/-- Whatever a script does to a new document, the next call finds the rows kept. -/
theorem keeps_calls (actor : A) (calls : List (Call A)) :
    (calls.foldl call (Tx.new actor)).Keeps I :=
  holds_calls (keeps_invariant hI) (keeps_new hI actor) calls

end

/-! ## Lists in order -/

theorem sound_iff {tx : Tx A} :
    tx.Sound ↔ tx.Keeps fun _ t rows => t = .list → ListRows rows := by
  constructor
  · rintro ⟨hfresh, hlists⟩
    exact ⟨hfresh, fun obj t ht hl => hlists obj (hl ▸ ht)⟩
  · rintro ⟨hfresh, hkept⟩
    exact ⟨hfresh, fun obj ht => hkept obj .list ht rfl⟩

/-- Nothing in a list has a key. -/
theorem visibleAtKey_list {rows : List (Row A)} (hkey : ∀ r ∈ rows, ∃ e, r.key = .seq e)
    (prop : String) : OpSet.visibleAtKey rows prop = [] := by
  apply List.filter_eq_nil_iff.mpr
  intro r hr
  obtain ⟨e, he⟩ := hkey r hr
  rw [he]
  simp

/-- So there is nothing to increment or to delete. -/
theorem localMapOp_list {tx : Tx A} {obj : ObjId A} (hkey : ∀ r ∈ tx.ops.rows obj, ∃ e, r.key = .seq e)
    (prop : String) {action : OpType} (ha : action.isMark = false)
    (hset : action.isSetOrMake = false) : (tx.localMapOp obj prop action).1 = tx := by
  unfold localMapOp localOp
  dsimp only
  rw [visibleAtKey_list hkey]
  cases action with
  | delete | increment => rfl
  | put | make => cases hset
  | markBegin | markEnd => cases ha

theorem listRows_invariant :
    RowsInvariant (A := A) fun _ t rows => t = .list → ListRows rows where
  nil _ _ _ := ListRows.nil
  mapOp _ _ hrows prop _ ha hset := by
    rintro rfl
    rw [localMapOp_list (hrows rfl).key prop ha (hset rfl)]
    exact hrows rfl
  listOp hfresh _ hrows _ n _ ha := by
    rintro rfl
    exact listRows_localListOp hfresh (hrows rfl) n ha
  insert {tx obj _} _ _ hrows _ index action ha := by
    rintro rfl
    have hl := hrows rfl
    cases heq : tx.doInsert obj .list index action with
    | mk tx' result =>
      cases result with
      | ok id => exact (listRows_doInsert hl (ha rfl) heq).1
      | error e =>
        unfold doInsert at heq
        split at heq
        · cases heq
          exact hl
        · cases heq
  splice _ _ _ _ _ _ hn := by cases hn

theorem sound_call {tx : Tx A} (h : tx.Sound) (c : Call A) : (tx.call c).Sound :=
  sound_iff.mpr (keeps_call listRows_invariant (sound_iff.mp h) c)

theorem sound_amPut {tx : Tx A} (h : tx.Sound) (obj : ObjId A) (key value : RValue) :
    (tx.amPut obj key value).1.Sound := sound_call h (.put obj key value)

theorem sound_amCounterIncrement {tx : Tx A} (h : tx.Sound) (obj : ObjId A) (key delta : RValue) :
    (tx.amCounterIncrement obj key delta).1.Sound := sound_call h (.counterIncrement obj key delta)

/-- Whatever a script does to a new document, the next call finds it sound. -/
theorem sound_calls (actor : A) (calls : List (Call A)) :
    (calls.foldl call (Tx.new actor)).Sound :=
  sound_iff.mpr (keeps_calls listRows_invariant actor calls)

end Tx

end AutomergeR
