import AutomergeR.MapOps
import AutomergeR.Paths

/-! # What a failed `am_put_path` leaves behind

The intermediate maps are made one by one while the path is walked. From the first one
on the walk is in a map that has just been made, where every further component must be a
name and the value must be one that can be stored.
-/

namespace AutomergeR

variable {A : Type} [LinearOrder A]

/-- A single UTF-8 string. -/
def RValue.isName : RValue → Bool
  | .character _ [k] => k.char.isSome
  | _ => false

theorem RValue.isName_iff {key : RValue} :
    key.isName = true ↔ ∃ cls k prop, key = .character cls [k] ∧ k.char = some prop := by
  constructor
  · intro h
    match key with
    | .character cls [k] =>
      obtain ⟨prop, hk⟩ := Option.isSome_iff_exists.mp h
      exact ⟨cls, k, prop, rfl, hk⟩
  · rintro ⟨cls, k, prop, rfl, hk⟩
    simp [RValue.isName, hk]

/-- A string vector that `am_get` takes is a name. -/
theorem OpSet.isName_of_amGet {s : OpSet A} {obj : ObjId A} {cls : List String} {xs : List RString}
    {g : Got A} (h : s.amGet obj (.character cls xs) = .ok g) :
    (RValue.character cls xs).isName = true := by
  match xs with
  | [k] =>
    cases hk : k.char with
    | none =>
      simp only [amGet, hk] at h
      cases h
    | some prop => simp [RValue.isName, hk]
  | [] => cases h
  | _ :: _ :: _ => cases h

namespace Tx

/-! ## Making an intermediate map -/

theorem mapGet_putObject {tx tx' : Tx A} (h : tx.Fresh) {obj : ObjId A}
    (ht : tx.ops.objectType obj = some .map) {prop : String} {t : ObjType} {id : Option (OpId A)}
    (heq : tx.putObject obj (.map prop) t = (tx', .ok id)) :
    tx'.ops.mapGet obj prop = some (.object t tx.nextId) := by
  have hw := writes_putObject h obj (.map prop) t
  rw [heq] at hw
  have ht' : tx'.ops.objectType obj = some .map := (hw.objectType obj (h.made ht)).trans ht
  obtain ⟨tx₁, id₁, hset, -, r, hvis, hl⟩ := localMapOp_set h _ prop (show (OpType.make t).isSetOrMake = true from rfl)
  have hput : tx.putObject obj (.map prop) t = tx.localMapOp obj prop (.make t) := by
    simp only [putObject, objMeta, ht, localObjOp]
  rw [hput, hset] at heq
  cases heq
  simp only [OpSet.mapGet, ht', hvis]
  cases hl with
  | new hid ha hs => simp [Row.value, ha, hid]

theorem encoding_amMap : encoding amMap = .object .map := rfl

/-- `am_put(doc, obj, key, am_map())` in a map makes the map, and reads as it. -/
theorem amPut_amMap {tx : Tx A} (h : tx.Fresh) {obj : ObjId A}
    (ht : tx.ops.objectType obj = some .map) (cls : List String) {k : RString} {prop : String}
    (hk : k.char = some prop) :
    ∃ tx', tx.amPut obj (.character cls [k]) amMap = (tx', .ok ()) ∧ Created obj .map tx tx' ∧
      tx'.ops.amGet obj (.character cls [k]) = .ok (.object (some .map) tx.nextId) := by
  have hmap : tx.isMap obj = true := by
    unfold isMap
    rw [ht]
    cases obj <;> rfl
  obtain ⟨tx', hput, hc⟩ := putObject_map h ht prop .map
  refine ⟨tx', ?_, hc, ?_⟩
  · have hb : tx.beginPut obj (.character cls [k]) true amMap false =
        (tx', .ok (some tx.nextId)) := by
      simp only [beginPut, slot, if_true, encoding_amMap, putItem, hk, putProp, hput, lift]
    unfold amPut amMap at *
    rw [hmap]
    unfold putValue
    rw [hb]
    rfl
  · have ht' := (hc.writes.objectType obj (h.made ht)).trans ht
    simp only [OpSet.amGet, hk, OpSet.getMap, ht', mapGet_putObject h ht hput, OpSet.itemToR,
      hc.objectType]

/-! ## In a map that has just been made -/

/-- A component that is no name leads nowhere in an empty map. -/
theorem amGet_empty {s : OpSet A} {obj : ObjId A} (ht : s.objectType obj = some .map)
    (hr : s.rows obj = []) (key : RValue) :
    s.amGet obj key = .ok (.value .null) ∨ ∃ e, s.amGet obj key = .error e := by
  match key with
  | .character _ [k] =>
    cases hk : k.char with
    | none => exact Or.inr ⟨.invalidUtf8, by simp only [OpSet.amGet, hk]⟩
    | some prop =>
      left
      simp only [OpSet.amGet, hk, OpSet.getMap, ht, OpSet.mapGet, hr]
      rfl
  | .integer _ _ | .double _ _ =>
    unfold OpSet.amGet
    dsimp only
    split_ifs
    · exact Or.inr ⟨_, rfl⟩
    · exact Or.inl rfl
    · left
      unfold OpSet.getList
      split
      · rfl
      · rfl
      · rename_i heq
        split at heq
        · cases heq
        · simp [ht] at heq
  | .null | .logical _ _ | .raw _ _ | .list _ _ | .namedList _ _ | .other _ _ | .character _ []
  | .character _ (_ :: _ :: _) => exact Or.inr ⟨_, rfl⟩

theorem isMap_of_map {tx : Tx A} {obj : ObjId A} (ht : tx.ops.objectType obj = some .map) :
    tx.isMap obj = true := by
  unfold isMap
  rw [ht]
  cases obj <;> rfl

/-- The put at the end of a path into a new map: the key must be a name. -/
theorem amPut_map_iff {tx : Tx A} (h : tx.Fresh) {obj : ObjId A}
    (ht : tx.ops.objectType obj = some .map) (key value : RValue) :
    (tx.amPut obj key value).2 = .ok () ↔ key.isName = true ∧ value.storable = true := by
  unfold amPut
  rw [isMap_of_map ht]
  constructor
  · intro hok
    have heq : tx.putValue obj key true false value =
        ((tx.putValue obj key true false value).1, .ok ()) := Prod.ext rfl hok
    refine ⟨?_, storable_of_putValue value h heq⟩
    obtain ⟨sl, tx₁, item, id, hsl, hput⟩ := item_of_putValue heq
    unfold slot at hsl
    simp only [if_true] at hsl
    split at hsl
    · cases hsl
      exact (putItem_key_ok hput).2.1
    · cases hsl
  · rintro ⟨hkey, hv⟩
    obtain ⟨cls, k, prop, rfl, hk⟩ := RValue.isName_iff.mp hkey
    have hsl : slot true (.character cls [k]) false = .ok (.key k) := rfl
    obtain ⟨tx', u, heq⟩ := putValue_succeeds value h hsl (accepts_key ht (by rw [hk]; rfl)) hv
    rw [heq]

/-- From a new map on, `am_put_path` succeeds when all components are names and the value
can be stored, and writes only there. -/
theorem amPutPathFrom_fresh (value : RValue) (path : List RValue) :
    ∀ (i : ℕ) {tx : Tx A} {obj : ObjId A}, path ≠ [] → tx.Fresh →
      tx.ops.objectType obj = some .map → tx.ops.rows obj = [] →
      Writes obj tx (amPutPathFrom true value i tx obj path).1 ∧
        ((amPutPathFrom true value i tx obj path).2 = .ok () ↔
          path.all RValue.isName = true ∧ value.storable = true) := by
  induction path with
  | nil => exact fun _ _ _ hne => absurd rfl hne
  | cons key path ih =>
    intro i tx obj _ h ht hr
    cases path with
    | nil =>
      unfold amPutPathFrom
      refine ⟨writes_putValue value h obj key (tx.isMap obj) false, ?_⟩
      have hput := amPut_map_iff h ht key value
      dsimp only
      cases hres : (tx.amPut obj key value).2 with
      | ok u =>
        rw [hres] at hput
        simpa [Except.mapError] using hput
      | error e =>
        rw [hres] at hput
        simpa [Except.mapError] using hput
    | cons key' path =>
      cases hname : key.isName with
      | true =>
        obtain ⟨cls, k, prop, rfl, hk⟩ := RValue.isName_iff.mp hname
        obtain ⟨tx', hput, hc, hget⟩ := amPut_amMap h ht cls hk
        have hnull : tx.ops.amGet obj (.character cls [k]) = .ok (.value .null) := by
          simp only [OpSet.amGet, hk, OpSet.getMap, ht, OpSet.mapGet, hr]
          rfl
        obtain ⟨hw, hiff⟩ := ih (i + 1) (List.cons_ne_nil key' path) (hc.writes.fresh h)
          hc.objectType hc.rows
        have hstep : amPutPathFrom true value i tx obj (.character cls [k] :: key' :: path) =
            amPutPathFrom true value (i + 1) tx' (some tx.nextId) (key' :: path) := by
          conv_lhs => unfold amPutPathFrom
          simp only [hnull, if_true, hput, hget]
        rw [hstep, List.all_cons, hname, Bool.true_and]
        exact ⟨hc.writes.nested hw (not_made_nextId tx), hiff⟩
      | false =>
        have herr : ∃ e, amPutPathFrom true value i tx obj (key :: key' :: path) =
            (tx, .error e) := by
          unfold amPutPathFrom
          rcases amGet_empty ht hr key with hget | ⟨e, hget⟩
          · rw [hget]
            cases key with
            | character cls xs =>
              rw [OpSet.isName_of_amGet hget] at hname
              cases hname
            | null | logical | integer | double | raw | list | namedList | other =>
              exact ⟨_, rfl⟩
          · exact ⟨.call e, by simp only [hget]⟩
        obtain ⟨e, herr⟩ := herr
        rw [herr, List.all_cons, hname, Bool.false_and]
        exact ⟨Writes.refl obj tx, by simp⟩

/-! ## On a whole path -/

/-- Whether a map can be made at the key. -/
def acceptsName (tx : Tx A) (obj : ObjId A) : RValue → Bool
  | .character _ [k] => tx.accepts obj (.key k)
  | _ => false

/-- Whether the call makes a map it cannot lead the path through, or leaves a part of the
value: the walk reaches a missing component where a map can be made, and a later component
is no name or the value cannot be stored; or it reaches the end of the path, and the put
there leaves a part. -/
def leavesPath (tx : Tx A) (create : Bool) (value : RValue) : ObjId A → List RValue → Bool
  | _, [] => false
  | obj, [key] => tx.leavesPart obj key (tx.isMap obj) false value
  | obj, key :: next :: path =>
    match tx.ops.amGet obj key with
    | .ok (.object _ id) => tx.leavesPath create value (some id) (next :: path)
    | .ok (.value .null) =>
      create && tx.acceptsName obj key &&
        !((next :: path).all RValue.isName && value.storable)
    | _ => false

omit [LinearOrder A] in
theorem unchanged_of_clean {E : Type} {tx : Tx A} {e : E} :
    ∀ tx' e', ((tx, .error e) : Reply A E Unit) = (tx', .error e') → SameContent tx.ops tx'.ops := by
  intro tx' e' heq
  cases heq
  exact SameContent.refl _

/-- Where no map can be made, `am_put` of a map fails and changes nothing. -/
theorem amPut_amMap_refused {tx : Tx A} (h : tx.Fresh) {obj : ObjId A} (cls : List String)
    (k : RString) (ht : tx.ops.objectType obj = some .table) :
    ∃ e, tx.amPut obj (.character cls [k]) amMap = (tx, .error e) := by
  have hmap : tx.isMap obj = true := by
    unfold isMap
    rw [ht]
    cases obj <;> rfl
  unfold amPut
  rw [hmap]
  have hl : tx.leavesPart obj (.character cls [k]) true false amMap = false := by
    simp [leavesPart, slot, accepts, ht]
  have hclean := clean_putValue h hl
  cases hput : tx.putValue obj (.character cls [k]) true false amMap with
  | mk tx' result =>
    cases result with
    | error e =>
      rw [hput] at hclean
      cases hclean e rfl
      exact ⟨e, rfl⟩
    | ok u =>
      obtain ⟨sl, tx₁, item, id, hsl, hitem⟩ := item_of_putValue hput
      cases hsl
      rw [(putItem_key_ok hitem).1] at ht
      cases ht

theorem amPutPathFrom_error_iff {tx : Tx A} (h : tx.Fresh) {create : Bool} {value : RValue}
    (path : List RValue) :
    ∀ (i : ℕ) (obj : ObjId A),
      (∀ tx' e, amPutPathFrom create value i tx obj path = (tx', .error e) →
        SameContent tx.ops tx'.ops) ↔ tx.leavesPath create value obj path = false := by
  induction path with
  | nil =>
    intro i obj
    refine ⟨fun _ => rfl, fun _ tx' e heq => ?_⟩
    cases heq
  | cons key path ih =>
    intro i obj
    cases path with
    | nil =>
      have hput : (∀ tx' e, tx.amPut obj key value = (tx', .error e) →
          SameContent tx.ops tx'.ops) ↔ _ := putValue_error_iff h
      unfold leavesPath
      rw [← hput]
      unfold amPutPathFrom
      cases hres : tx.amPut obj key value with
      | mk tx₁ result =>
        cases result with
        | ok u => simp [Except.mapError]
        | error e => simp [Except.mapError]
    | cons key' path =>
      unfold leavesPath amPutPathFrom
      cases hget : tx.ops.amGet obj key with
      | error e => exact ⟨fun _ => rfl, fun _ => unchanged_of_clean⟩
      | ok g =>
        cases g with
        | object t id => exact ih (i + 1) (some id)
        | value v =>
          cases v with
          | null =>
            dsimp only
            cases create with
            | false => exact ⟨fun _ => rfl, fun _ => unchanged_of_clean⟩
            | true =>
              cases key with
              | character cls xs =>
                obtain ⟨cls', k, prop, hkey, hk⟩ :=
                  RValue.isName_iff.mp (OpSet.isName_of_amGet hget)
                cases hkey
                have ht : tx.ops.objectType obj = some .map ∨
                    tx.ops.objectType obj = some .table := by
                  simp only [OpSet.amGet, hk, OpSet.getMap] at hget
                  cases ht : tx.ops.objectType obj with
                  | none => simp [ht] at hget
                  | some t => cases t <;> simp [ht] at hget ⊢
                rcases ht with ht | ht
                · obtain ⟨tx₁, hput, hc, hget₁⟩ := amPut_amMap h ht cls hk
                  obtain ⟨hw, hiff⟩ := amPutPathFrom_fresh value (key' :: path) (i + 1)
                    (List.cons_ne_nil key' path) (hc.writes.fresh h) hc.objectType hc.rows
                  have ha : tx.acceptsName obj (.character cls [k]) = true :=
                    accepts_key ht (by rw [hk]; rfl)
                  simp only [if_true, hput, hget₁, ha, Bool.true_and, Bool.not_eq_false',
                    Bool.and_eq_true]
                  rw [← hiff]
                  cases hres : amPutPathFrom true value (i + 1) tx₁ (some tx.nextId)
                      (key' :: path) with
                  | mk tx' result =>
                    rw [hres] at hw
                    cases result with
                    | ok u => exact ⟨fun _ => rfl, fun _ _ _ heq => by cases heq⟩
                    | error e =>
                      constructor
                      · intro hall
                        exact absurd (hall tx' e rfl) (hc.not_sameContent h (h.made ht) hw)
                      · intro hok
                        cases hok
                · obtain ⟨e, hput⟩ := amPut_amMap_refused h cls k ht
                  have ha : tx.acceptsName obj (.character cls [k]) = false := by
                    simp [acceptsName, accepts, ht]
                  simp only [if_true, hput, ha, Bool.and_false, Bool.false_and]
                  exact ⟨fun _ => trivial, fun _ => unchanged_of_clean⟩
              | null | logical | integer | double | raw | list | namedList | other =>
                exact ⟨fun _ => rfl, fun _ => unchanged_of_clean⟩
          | logical | integer | double | character | raw | list | namedList | other =>
            exact ⟨fun _ => rfl, fun _ => unchanged_of_clean⟩

/-- **A failed `am_put_path`.** When it raises an error every object shows what it showed
before, exactly when the call makes no map it cannot lead the path through and leaves no
part of the value. -/
theorem amPutPath_sameContent_iff (tx : Tx A) (h : tx.Fresh) (path : List RValue)
    (value : RValue) (create : Bool) :
    (∀ tx' e, tx.amPutPath path value create = (tx', .error e) → SameContent tx.ops tx'.ops) ↔
      tx.leavesPath create value none path = false := by
  unfold amPutPath
  cases path with
  | nil => exact ⟨fun _ => rfl, fun _ => unchanged_of_clean⟩
  | cons key path => exact amPutPathFrom_error_iff h (key :: path) 1 none

end Tx

/-- `list("k", 1L, "x")`. -/
def pathThroughIndex : List RValue := [keyK, .integer [] [1], .character [] [.lit "x"]]

/-- In an empty document the path `list("k", 1L, "x")` fails at its second component, and
the map made for the first one stays. -/
theorem amPutPath_leaves_map :
    ((Tx.new 0).amPutPath pathThroughIndex (.integer [] [5]) true).2 =
        .error (.noIntermediate 1) ∧
      ¬ SameContent (Tx.new 0).ops
        ((Tx.new 0).amPutPath pathThroughIndex (.integer [] [5]) true).1.ops := by
  refine ⟨by decide, fun hsame => ?_⟩
  have hroot := hsame none
  revert hroot
  decide

/-- Without intermediates the same path fails and leaves nothing. -/
theorem amPutPath_sameContent_iff_new :
    ((Tx.new 0).amPutPath pathThroughIndex (.integer [] [5]) false).2 =
        .error (.report (.missing 1)) ∧
      SameContent (Tx.new 0).ops
        ((Tx.new 0).amPutPath pathThroughIndex (.integer [] [5]) false).1.ops := by
  have hfails : ((Tx.new 0).amPutPath pathThroughIndex (.integer [] [5]) false).2 =
      .error (.report (.missing 1)) := by decide
  refine ⟨hfails, ?_⟩
  apply (Tx.amPutPath_sameContent_iff (Tx.new 0) (Tx.fresh_new 0) pathThroughIndex
    (.integer [] [5]) false).mpr (by decide) _ _ (Prod.ext rfl hfails)

end AutomergeR
