import AutomergeR.Populate

/-! # Calls that fail half-way

What `am_put` and `am_insert` leave behind when they raise an error. Making a container
and filling it are separate calls of the library, so a part that cannot be stored is
found when the container is already there.
-/

namespace AutomergeR

variable {A : Type} [LinearOrder A]

/-! ## The visible content -/

/-- The visible operations of an object in document order: the place, the operation and
the value of each. -/
def OpSet.shown (s : OpSet A) (obj : ObjId A) : List (Key A × OpId A × Value A) :=
  ((s.rows obj).filter (·.visible)).map fun r => (r.elemidOrKey, r.id, r.value)

/-- Every object shows the same. -/
def SameContent (s s' : OpSet A) : Prop := ∀ obj, s'.shown obj = s.shown obj

omit [LinearOrder A] in
theorem SameContent.refl (s : OpSet A) : SameContent s s := fun _ => rfl

namespace Tx

/-- A new object is visible where it was made, and stays so while it is filled. -/
theorem Created.not_sameContent {tx tx₁ tx' : Tx A} {obj : ObjId A} {t : ObjType} (h : tx.Fresh)
    (hm : tx.Made obj) (hc : Created obj t tx tx₁) (hw : Writes (some tx.nextId) tx₁ tx') :
    ¬ SameContent tx.ops tx'.ops := by
  intro hsame
  obtain ⟨r, hr, hid, -, hv⟩ := hc.shown
  have hrows := hw.rows obj (ne_nextId hm).symm (hm.mono hc.writes.next)
  have hmem : (r.elemidOrKey, r.id, r.value) ∈ tx'.ops.shown obj := by
    apply List.mem_map_of_mem
    rw [hrows]
    exact List.mem_filter.mpr ⟨hr, hv⟩
  rw [hsame obj] at hmem
  obtain ⟨r', hr', heq⟩ := List.mem_map.mp hmem
  have hlt := h.ids obj r' (List.mem_of_mem_filter hr')
  have hid' : r'.id = tx.nextId := by
    rw [← hid]
    exact congrArg (fun p => p.2.1) heq
  rw [hid'] at hlt
  exact lt_irrefl _ hlt

/-! ## What a failed put leaves -/

omit [LinearOrder A] in
theorem Clean.lift {α : Type} {tx : Tx A} {reply : Reply A OpError α} (h : Clean tx reply) :
    Clean tx (Tx.lift reply) := by
  obtain ⟨tx₁, result⟩ := reply
  intro e he
  cases result with
  | ok a => cases he
  | error e' => exact h e' rfl

theorem clean_putProp (tx : Tx A) (obj : ObjId A) (prop : ObjProp) (item : Item) :
    Clean tx (tx.putProp obj prop item) := by
  cases item with
  | scalar v => exact (clean_put tx obj prop v).lift
  | object t => exact (clean_putObject tx obj prop t).lift
  | str text =>
    unfold putProp
    dsimp only
    split
    · exact (clean_put tx obj prop _).lift
    · exact Clean.self tx _

theorem clean_insertItem (tx : Tx A) (obj : ObjId A) (index : ℕ) (item : Item) :
    Clean tx (tx.insertItem obj index item) := by
  cases item with
  | scalar v => exact (clean_insert tx obj index _).lift
  | object t => exact (clean_insert tx obj index _).lift
  | str text =>
    unfold insertItem
    dsimp only
    split
    · exact (clean_insert tx obj index _).lift
    · exact Clean.self tx _

theorem clean_putItem (tx : Tx A) (obj : ObjId A) (slot : Slot) (item : Item) :
    Clean tx (tx.putItem obj slot item) := by
  unfold putItem
  split
  · split
    · exact clean_putProp tx obj _ item
    · exact Clean.self tx _
  · split
    · exact Clean.self tx _
    · rename_i index _
      have hc := clean_insertItem tx obj index item
      intro e he
      dsimp only at he ⊢
      cases hr : (tx.insertItem obj index item).2 with
      | ok id =>
        rw [hr] at he
        cases he
      | error e' => exact hc e' hr
    · exact clean_putProp tx obj _ item

end Tx

/-- Whether the value becomes an object with something in it. -/
def Encoding.makesObject : Encoding → Bool
  | .object _ | .text _ => true
  | _ => false

namespace Tx

/-- A container is made, and then a part of the value turns out not to be storable. -/
def leavesPart (tx : Tx A) (obj : ObjId A) (key : RValue) (isMap forceInsert : Bool)
    (value : RValue) : Bool :=
  match slot isMap key forceInsert with
  | .error _ => false
  | .ok sl => tx.accepts obj sl && (encoding value).makesObject && !value.storable

variable {tx tx₁ : Tx A} {obj : ObjId A} {key value : RValue} {isMap forceInsert : Bool}

theorem putValue_error {e : RError}
    (h : tx.beginPut obj key isMap value forceInsert = (tx₁, .error e)) :
    tx.putValue obj key isMap forceInsert value = (tx₁, .error e) := by
  cases value <;> (unfold putValue; rw [h]; rfl)

theorem putValue_none (h : tx.beginPut obj key isMap value forceInsert = (tx₁, .ok none)) :
    tx.putValue obj key isMap forceInsert value = (tx₁, .ok ()) := by
  cases value <;> (unfold putValue; rw [h]; rfl)

/-- What is left of a value that becomes an object is written to that object. -/
theorem putValue_created (h : tx.Fresh) {sl : Slot} (hsl : slot isMap key forceInsert = .ok sl)
    (ha : tx.accepts obj sl = true) (hm : (encoding value).makesObject = true) :
    ∃ t tx₁, Created obj t tx tx₁ ∧
      Writes (some tx.nextId) tx₁ (tx.putValue obj key isMap forceInsert value).1 := by
  cases he : encoding value with
  | item i =>
    rw [he] at hm
    cases hm
  | unsupported m =>
    rw [he] at hm
    cases hm
  | object t =>
    obtain ⟨tx₁, hput, hc⟩ := (makes_putItem h obj sl t).1 ha
    have hb : tx.beginPut obj key isMap value forceInsert = (tx₁, .ok (some tx.nextId)) := by
      unfold beginPut
      simp only [hsl, he, hput]
    refine ⟨t, tx₁, hc, ?_⟩
    cases value with
    | list cls xs =>
      unfold putValue
      rw [hb]
      exact writes_populateList xs (hc.writes.fresh h) _
    | namedList cls xs =>
      unfold putValue
      rw [hb]
      exact writes_populateMap xs (hc.writes.fresh h) _
    | null | logical | integer | double | character | raw | other =>
      unfold putValue
      rw [hb]
      exact Writes.refl _ tx₁
  | text initial =>
    obtain ⟨tx₁, hput, hc⟩ := (makes_putItem h obj sl .text).1 ha
    refine ⟨.text, tx₁, hc, ?_⟩
    have hw := writes_amSpliceText (hc.writes.fresh h) (some tx.nextId) 0 0 initial
    by_cases hempty : initial.char = some ""
    · have hb : tx.beginPut obj key isMap value forceInsert = (tx₁, .ok none) := by
        unfold beginPut
        simp only [hsl, he, hput, if_pos hempty]
      rw [putValue_none hb]
      exact Writes.refl _ tx₁
    · cases hs : tx₁.amSpliceText (some tx.nextId) 0 0 initial with
      | mk tx₂ result =>
        rw [hs] at hw
        cases result with
        | ok u =>
          have hb : tx.beginPut obj key isMap value forceInsert = (tx₂, .ok none) := by
            unfold beginPut
            simp only [hsl, he, hput, if_neg hempty, hs]
            rfl
          rw [putValue_none hb]
          exact hw
        | error e =>
          have hb : tx.beginPut obj key isMap value forceInsert = (tx₂, .error e) := by
            unfold beginPut
            simp only [hsl, he, hput, if_neg hempty, hs]
            rfl
          rw [putValue_error hb]
          exact hw

theorem beginPut_not_accepted (h : tx.Fresh) {sl : Slot}
    (hsl : slot isMap key forceInsert = .ok sl) (ha : tx.accepts obj sl = false)
    (hm : (encoding value).makesObject = true) :
    ∃ e, tx.beginPut obj key isMap value forceInsert = (tx, .error e) := by
  cases he : encoding value with
  | item i =>
    rw [he] at hm
    cases hm
  | unsupported m =>
    rw [he] at hm
    cases hm
  | object t =>
    obtain ⟨e, hput⟩ := (makes_putItem h obj sl t).2 ha
    refine ⟨e, ?_⟩
    unfold beginPut
    simp only [hsl, he, hput]
  | text initial =>
    obtain ⟨e, hput⟩ := (makes_putItem h obj sl .text).2 ha
    refine ⟨e, ?_⟩
    unfold beginPut
    simp only [hsl, he, hput]

/-- Nothing is touched when no container is made, or when all of the value can be stored. -/
theorem clean_putValue (h : tx.Fresh) (hl : tx.leavesPart obj key isMap forceInsert value = false) :
    Clean tx (tx.putValue obj key isMap forceInsert value) := by
  intro e he
  unfold leavesPart at hl
  cases hsl : slot isMap key forceInsert with
  | error e' =>
    have hb : tx.beginPut obj key isMap value forceInsert = (tx, .error e') := by
      unfold beginPut
      rw [hsl]
    rw [putValue_error hb]
  | ok sl =>
    simp only [hsl, Bool.and_eq_false_iff, Bool.not_eq_false'] at hl
    cases henc : encoding value with
    | unsupported m =>
      have hb : tx.beginPut obj key isMap value forceInsert = (tx, .error (.stop m)) := by
        unfold beginPut
        simp only [hsl, henc]
      rw [putValue_error hb]
    | item i =>
      have hclean := clean_putItem tx obj sl i
      cases hput : tx.putItem obj sl i with
      | mk tx₁ result =>
        cases result with
        | ok id =>
          have hb : tx.beginPut obj key isMap value forceInsert = (tx₁, .ok none) := by
            unfold beginPut
            simp only [hsl, henc, hput]
            rfl
          rw [putValue_none hb] at he
          cases he
        | error e' =>
          have hb : tx.beginPut obj key isMap value forceInsert = (tx₁, .error e') := by
            unfold beginPut
            simp only [hsl, henc, hput]
            rfl
          rw [putValue_error hb]
          rw [hput] at hclean
          exact hclean e' rfl
    | object _ | text _ =>
      cases ha : tx.accepts obj sl with
      | false =>
        obtain ⟨e', hb⟩ := beginPut_not_accepted h hsl ha (by rw [henc]; rfl)
        rw [putValue_error hb]
      | true =>
        rw [ha, henc] at hl
        have hv : value.storable = true := by simpa [Encoding.makesObject] using hl
        obtain ⟨tx₁, u, heq⟩ := putValue_succeeds value h hsl ha hv
        rw [heq] at he
        cases he

theorem made_of_accepts (h : tx.Fresh) {sl : Slot} (ha : tx.accepts obj sl = true) :
    tx.Made obj := by
  cases sl with
  | key name =>
    unfold accepts at ha
    rw [Bool.and_eq_true, decide_eq_true_eq] at ha
    exact h.made ha.2
  | pos pos ins =>
    unfold accepts at ha
    dsimp only at ha
    cases hadj : adjust pos ins (tx.ops.length obj) with
    | error e => simp [hadj] at ha
    | ok place =>
      obtain ⟨index, ins'⟩ := place
      rw [hadj] at ha
      cases ins' with
      | true =>
        obtain ⟨t, ht, -⟩ := acceptsAt_insert ha
        exact h.made ht
      | false => exact h.made (acceptsAt_put ha).1

/-- A failed put leaves the content alone exactly when it does not leave a container with
a part missing. -/
theorem putValue_error_iff (h : tx.Fresh) :
    (∀ tx' e, tx.putValue obj key isMap forceInsert value = (tx', .error e) →
      SameContent tx.ops tx'.ops) ↔ tx.leavesPart obj key isMap forceInsert value = false := by
  constructor
  · intro hall
    by_contra hl
    rw [Bool.not_eq_false] at hl
    unfold leavesPart at hl
    cases hsl : slot isMap key forceInsert with
    | error e => simp [hsl] at hl
    | ok sl =>
      simp only [hsl, Bool.and_eq_true, Bool.not_eq_true'] at hl
      obtain ⟨⟨ha, hmo⟩, hv⟩ := hl
      obtain ⟨t, tx₁, hc, hw⟩ := putValue_created h hsl ha hmo
      cases hput : tx.putValue obj key isMap forceInsert value with
      | mk tx' result =>
        cases result with
        | ok u =>
          rw [storable_of_putValue value h hput] at hv
          cases hv
        | error e =>
          rw [hput] at hw
          exact hc.not_sameContent h (made_of_accepts h ha) hw (hall tx' e hput)
  · intro hl tx' e heq
    have hclean := clean_putValue h hl e (by rw [heq])
    rw [heq] at hclean
    cases hclean
    exact SameContent.refl _

/-- **A put that fails changes nothing, unless it leaves a container.** When `am_put` or
`am_insert` raises an error, every object shows what it showed before, except when the
slot takes the container the value becomes and a part of the value cannot be stored. -/
theorem failedPut_sameContent_iff (tx : Tx A) (h : tx.Fresh) (obj : ObjId A) (key value : RValue) :
    ((∀ tx' e, tx.amPut obj key value = (tx', .error e) → SameContent tx.ops tx'.ops) ↔
        tx.leavesPart obj key (tx.isMap obj) false value = false) ∧
      ((∀ tx' e, tx.amInsert obj key value = (tx', .error e) → SameContent tx.ops tx'.ops) ↔
        ¬ (tx.ops.objectType obj = some .list ∧
          tx.leavesPart obj key false true value = true)) := by
  refine ⟨putValue_error_iff h, ?_⟩
  by_cases ht : tx.ops.objectType obj = some .list
  · unfold amInsert
    simp only [ht, if_true, true_and, Bool.not_eq_true]
    exact putValue_error_iff h
  · unfold amInsert
    simp only [ht, if_false, false_and, not_false_eq_true, iff_true]
    intro tx' e heq
    cases heq
    exact SameContent.refl _

end Tx

/-- `list(1L, f)` for a function `f`. -/
def listWithFunction : RValue := .list [] [.integer [] [1], .other [] 1]

/-- The key `"k"`. -/
def keyK : RValue := .character [] [.lit "k"]

/-- Into an empty document: the list stays under the key, with its first element. -/
theorem failedPut_leaves_list :
    ((Tx.new 0).amPut none keyK listWithFunction).2 =
        .error (.stop "Unsupported value type for am_put()") ∧
      ¬ SameContent (Tx.new 0).ops ((Tx.new 0).amPut none keyK listWithFunction).1.ops := by
  refine ⟨by decide, fun hsame => ?_⟩
  have hroot := hsame none
  revert hroot
  decide

/-- A list `[1]` under the key. -/
def listTx : Tx ℕ := ((Tx.new 0).amPut none keyK (.list [] [.integer [] [1]])).1

/-- A function put at its first position leaves the list alone, a list with a function does not. -/
theorem failedPut_sameContent_iff_list :
    (∃ tx' e, listTx.amPut (some (.new 1 0)) (.integer [] [1]) (.other [] 1) = (tx', .error e) ∧
        SameContent listTx.ops tx'.ops) ∧
      ∃ tx' e, listTx.amInsert (some (.new 1 0)) (.integer [] [1]) listWithFunction =
        (tx', .error e) ∧ ¬ SameContent listTx.ops tx'.ops := by
  have hfresh : listTx.Fresh :=
    (Tx.writes_putValue (.list [] [.integer [] [1]]) (Tx.fresh_new 0) none keyK _ false).fresh
      (Tx.fresh_new 0)
  have hput := (Tx.failedPut_sameContent_iff listTx hfresh (some (.new 1 0)) (.integer [] [1])
    (.other [] 1)).1.mpr (by decide)
  have hinsert := mt (Tx.failedPut_sameContent_iff listTx hfresh (some (.new 1 0)) (.integer [] [1])
    listWithFunction).2.mp (not_not.mpr (by decide))
  push Not at hinsert
  obtain ⟨tx', e, heq, hdiffers⟩ := hinsert
  exact ⟨⟨_, _, rfl, hput _ _ rfl⟩, tx', e, heq, hdiffers⟩

end AutomergeR
