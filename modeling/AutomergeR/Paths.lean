import AutomergeR.FailedPut

/-! # Paths

`convenience.R`: the three functions that walk a path, each with a loop of its own. The
walk starts at the root, which R knows as NULL, and goes on from what `am_get` yields.
-/

namespace AutomergeR

variable {A : Type} [LinearOrder A]

/-- `get_objid`. -/
def getObjid : Got A → Except RError (ObjId A)
  | .value .null => .ok none
  | .value _ => .error (.stop "Expected external pointer for object ID")
  | .object _ id => .ok (some id)

namespace OpSet

/-- The loop of `am_get_path`. It does not look at what it goes on from. -/
def amGetPathFrom (s : OpSet A) : Got A → List RValue → Except RError (Got A)
  | obj, [] => .ok obj
  | obj, key :: path =>
    match getObjid obj with
    | .error e => .error e
    | .ok id =>
      match s.amGet id key with
      | .error e => .error e
      | .ok (.value .null) => .ok (.value .null)
      | .ok next => s.amGetPathFrom next path

/-- `am_get_path`. -/
def amGetPath (s : OpSet A) (path : List RValue) : Except RError (Got A) :=
  if path.isEmpty then .error (.stop "path cannot be empty")
  else s.amGetPathFrom (.value .null) path

end OpSet

/-- What `am_put_path` and `am_delete_path` report of the component at a position. -/
inductive PathReport where
  | missing (position : ℕ)
  | notObject (position : ℕ)
  deriving DecidableEq

def PathReport.message : PathReport → String
  | .missing i => s!"Path component at position {i} does not exist"
  | .notObject i => s!"Path component at position {i} is not an object"

/-- Why `am_put_path` raises an error. -/
inductive PathError where
  /-- an error of one of the calls it makes -/
  | call (error : RError)
  | report (report : PathReport)
  | noIntermediate (index : ℤ)
  deriving DecidableEq

/-- The text of the `stop`, where there is one. -/
def PathError.message : PathError → Option String
  | .call _ => none
  | .report r => some r.message
  | .noIntermediate index => some s!"Cannot create intermediate list element at index {index}"

/-- `am_map()`. -/
def amMap : RValue := .list ["am_map_type", "list"] []

namespace Tx

/-- The loop of `am_put_path` and the put at its end. -/
def amPutPathFrom (create : Bool) (value : RValue) :
    ℕ → Tx A → ObjId A → List RValue → Reply A PathError Unit
  | _, tx, _, [] => (tx, .ok ())
  | _, tx, obj, [key] =>
    let (tx, reply) := tx.amPut obj key value
    (tx, reply.mapError .call)
  | i, tx, obj, key :: next :: path =>
    match tx.ops.amGet obj key with
    | .error e => (tx, .error (.call e))
    | .ok (.object _ id) => amPutPathFrom create value (i + 1) tx (some id) (next :: path)
    | .ok (.value .null) =>
      if create then
        match key with
        | .character _ _ =>
          match tx.amPut obj key amMap with
          | (tx, .error e) => (tx, .error (.call e))
          | (tx, .ok ()) =>
            match tx.ops.amGet obj key with
            | .error e => (tx, .error (.call e))
            | .ok (.object _ id) => amPutPathFrom create value (i + 1) tx (some id) (next :: path)
            | .ok (.value _) => (tx, .error (.report (.notObject i)))
        | _ => (tx, .error (.noIntermediate key.asInteger))
      else (tx, .error (.report (.missing i)))
    | .ok (.value _) => (tx, .error (.report (.notObject i)))

/-- `am_put_path`. -/
def amPutPath (tx : Tx A) (path : List RValue) (value : RValue) (create : Bool) :
    Reply A PathError Unit :=
  if path.isEmpty then (tx, .error (.call (.stop "path cannot be empty")))
  else amPutPathFrom create value 1 tx none path

/-- The loop of `am_delete_path` and the deletion at its end; it yields the warning. -/
def amDeletePathFrom : ℕ → Tx A → ObjId A → List RValue → Reply A RError (Option PathReport)
  | _, tx, _, [] => (tx, .ok none)
  | _, tx, obj, [key] =>
    let (tx, reply) := tx.amDelete obj key
    (tx, reply.map fun _ => none)
  | i, tx, obj, key :: next :: path =>
    match tx.ops.amGet obj key with
    | .error e => (tx, .error e)
    | .ok (.object _ id) => amDeletePathFrom (i + 1) tx (some id) (next :: path)
    | .ok (.value .null) => (tx, .ok (some (.missing i)))
    | .ok (.value _) => (tx, .ok (some (.notObject i)))

/-- `am_delete_path`. -/
def amDeletePath (tx : Tx A) (path : List RValue) : Reply A RError (Option PathReport) :=
  if path.isEmpty then (tx, .error (.stop "path cannot be empty"))
  else amDeletePathFrom 1 tx none path

end Tx

/-! ## Reading a path -/

/-- A single string or a single number. -/
def RValue.isPathKey : RValue → Bool
  | .character _ [_] | .integer _ [_] | .double _ [_] => true
  | _ => false

/-- A scalar that R can hold. -/
def ScalarValue.readable : ScalarValue → Bool
  | .str text => '\x00' ∉ text.toList
  | .unknown _ _ => false
  | _ => true

namespace OpSet

/-- A string that is not UTF-8, or that names a key of an object that is no map. -/
def refuses (s : OpSet A) (obj : ObjId A) : RValue → Bool
  | .character _ [k] =>
    k.char.isNone ||
      (s.objectType obj ≠ some .map ∧ s.objectType obj ≠ some .table)
  | _ => false

/-- What the object holds at a key or a position. -/
def find (s : OpSet A) (obj : ObjId A) : RValue → Option (Value A)
  | .character _ [k] => k.char.bind (s.mapGet obj)
  | key =>
    if key.asInteger < 1 then none
    else
      match s.getList obj (key.asInteger - 1).toNat with
      | .ok v => v
      | .error _ => none

/-- Whether a path meets a key the object refuses, or a scalar it cannot read or go on
from. -/
def astray (s : OpSet A) (obj : ObjId A) : List RValue → Bool
  | [] => false
  | key :: path =>
    s.refuses obj key ||
      match s.find obj key with
      | none => false
      | some (.object _ id) => s.astray (some id) path
      | some (.scalar v) => !v.readable || (v ≠ .null && !path.isEmpty)

/-- The value a path leads to, one `find` after the other. -/
def valueAt (s : OpSet A) (obj : ObjId A) : List RValue → Option (Value A)
  | [] => none
  | [key] => s.find obj key
  | key :: next :: path =>
    match s.find obj key with
    | some (.object _ id) => s.valueAt (some id) (next :: path)
    | _ => none

/-- What a value is in R; what does not exist is NULL. -/
def readsAs (s : OpSet A) (v : Option (Value A)) (r : Got A) : Prop :=
  match v with
  | none => r = .value .null
  | some v => s.itemToR v = .ok r

theorem itemToR_scalar (s : OpSet A) {v : ScalarValue} (h : v.readable = true) :
    ∃ r, s.itemToR (.scalar v) = .ok (.value r) ∧ (r = .null ↔ v = .null) := by
  cases v with
  | str text =>
    have hn : '\x00' ∉ text.toList := by simpa [ScalarValue.readable] using h
    exact ⟨.character [] [.utf8 text hn], by simp [itemToR, hn], by simp⟩
  | unknown => cases h
  | int n =>
    refine ⟨RValue.ofInt64 [] n, rfl, ?_⟩
    unfold RValue.ofInt64
    split_ifs <;> simp
  | counter n =>
    refine ⟨RValue.ofInt64 ["am_counter"] n, rfl, ?_⟩
    unfold RValue.ofInt64
    split_ifs <;> simp
  | null => exact ⟨.null, rfl, by simp⟩
  | bytes | uint | f64 | timestamp | boolean => exact ⟨_, rfl, by simp⟩

theorem itemToR_unreadable (s : OpSet A) {v : ScalarValue} (h : v.readable = false) :
    ∃ e, s.itemToR (.scalar v) = .error e := by
  cases v with
  | str text =>
    have hn : '\x00' ∈ text.toList := by simpa [ScalarValue.readable] using h
    exact ⟨.stop "embedded nul in string", by simp [itemToR, hn]⟩
  | unknown => exact ⟨_, rfl⟩
  | bytes | int | uint | f64 | counter | timestamp | boolean | null => cases h

/-- `am_get` of a key the object does not refuse reads what is found there. -/
theorem amGet_find (s : OpSet A) (obj : ObjId A) {key : RValue} (hk : key.isPathKey = true)
    (hr : s.refuses obj key = false) :
    s.amGet obj key =
      match s.find obj key with
      | none => .ok (.value .null)
      | some v => s.itemToR v := by
  match key with
  | .integer cls [n] | .double cls [n] =>
    unfold amGet find
    dsimp only
    split_ifs with hlen
    · exact absurd rfl hlen
    · exact absurd rfl hlen
    · rfl
    · cases s.getList obj _ with
      | error e => rfl
      | ok v => cases v <;> rfl
  | .character cls [k] =>
    unfold refuses at hr
    cases hc : k.char with
    | none => simp [hc] at hr
    | some prop =>
      have ht : s.objectType obj = some .map ∨ s.objectType obj = some .table := by
        simp [hc] at hr
        by_cases hm : s.objectType obj = some .map
        · exact Or.inl hm
        · exact Or.inr (hr hm)
      rcases ht with ht | ht <;>
        (simp only [amGet, find, hc, Option.bind_some, getMap, ht]
         cases s.mapGet obj prop <;> rfl)

theorem amGet_refused (s : OpSet A) (obj : ObjId A) {key : RValue}
    (hr : s.refuses obj key = true) : ∃ e, s.amGet obj key = .error e := by
  match key with
  | .character cls [k] =>
    cases hc : k.char with
    | none =>
      refine ⟨.invalidUtf8, ?_⟩
      simp only [amGet, hc]
    | some prop =>
      cases ht : s.objectType obj with
      | none =>
        refine ⟨.op .notAnObject, ?_⟩
        simp only [amGet, hc, getMap, ht]
      | some t =>
        cases t with
        | list | text =>
          refine ⟨.op .invalidOp, ?_⟩
          simp only [amGet, hc, getMap, ht]
        | map | table => simp [refuses, hc, ht] at hr

/-- From what is no object and not NULL no key leads further. -/
theorem amGetPathFrom_value (s : OpSet A) {v : RValue} (hv : v ≠ .null) (path : List RValue) :
    (∃ r, s.amGetPathFrom (.value v) path = .ok r) ↔ path.isEmpty = true := by
  cases path with
  | nil => simp [amGetPathFrom]
  | cons key path =>
    have hobj : getObjid (.value v : Got A) =
        .error (.stop "Expected external pointer for object ID") := by
      cases v <;> first | exact absurd rfl hv | rfl
    simp [amGetPathFrom, hobj]

/-- `am_get_path` returns exactly on the paths that do not go astray. -/
theorem amGetPathFrom_ok_iff (s : OpSet A) (path : List RValue)
    (hk : ∀ key ∈ path, key.isPathKey = true) :
    ∀ (g : Got A) (id : ObjId A), getObjid g = .ok id →
      ((∃ r, s.amGetPathFrom g path = .ok r) ↔ s.astray id path = false) := by
  induction path with
  | nil => exact fun g _ _ => ⟨fun _ => rfl, fun _ => ⟨g, rfl⟩⟩
  | cons key path ih =>
    intro g id hg
    have hkey := hk key List.mem_cons_self
    have ih := ih fun key' hkey' => hk key' (List.mem_cons_of_mem key hkey')
    unfold amGetPathFrom astray
    rw [hg]
    dsimp only
    cases hr : s.refuses id key with
    | true =>
      obtain ⟨e, he⟩ := s.amGet_refused id hr
      simp [he]
    | false =>
      rw [s.amGet_find id hkey hr, Bool.false_or]
      cases hf : s.find id key with
      | none => simp
      | some v =>
        cases v with
        | object t id' => exact ih _ _ rfl
        | scalar v =>
          dsimp only
          cases hv : v.readable with
          | false =>
            obtain ⟨e, he⟩ := s.itemToR_unreadable hv
            simp [he]
          | true =>
            obtain ⟨r, hr', hnull⟩ := s.itemToR_scalar hv
            rw [hr']
            by_cases hvn : v = .null
            · rw [hnull.mpr hvn]
              simp [hvn]
            · have hrn : r ≠ .null := fun hrn => hvn (hnull.mp hrn)
              have hval := s.amGetPathFrom_value hrn path
              cases r <;> first | exact absurd rfl hrn | simpa [hvn] using hval

/-- One step of `am_get_path`, from what `am_get` yields: it ends at NULL, and goes on else. -/
theorem amGetPathFrom_cons {s : OpSet A} {g next : Got A} {id : ObjId A} {key : RValue}
    {path : List RValue} {r : Got A} (hg : getObjid g = .ok id) (hget : s.amGet id key = .ok next)
    (h : s.amGetPathFrom g (key :: path) = .ok r) :
    next = .value .null ∧ r = .value .null ∨
      next ≠ .value .null ∧ s.amGetPathFrom next path = .ok r := by
  unfold amGetPathFrom at h
  simp only [hg, hget] at h
  split at h
  · contradiction
  · rename_i heq
    cases heq
    cases h
    exact Or.inl ⟨rfl, rfl⟩
  · rename_i hnull heq
    cases heq
    exact Or.inr ⟨hnull, h⟩

/-- What `am_get_path` returns is the value at the path. -/
theorem amGetPathFrom_readsAs (s : OpSet A) (path : List RValue) (hne : path ≠ [])
    (hk : ∀ key ∈ path, key.isPathKey = true) :
    ∀ (g : Got A) (id : ObjId A) (r : Got A), getObjid g = .ok id →
      s.amGetPathFrom g path = .ok r → s.readsAs (s.valueAt id path) r := by
  induction path with
  | nil => exact absurd rfl hne
  | cons key path ih =>
    intro g id r hg h
    cases hget : s.amGet id key with
    | error e =>
      simp only [amGetPathFrom, hg, hget] at h
      cases h
    | ok next =>
      have hstep := amGetPathFrom_cons hg hget h
      have hr : s.refuses id key = false := by
        by_contra hrefuses
        obtain ⟨e, he⟩ := s.amGet_refused id (Bool.not_eq_false _ ▸ hrefuses)
        rw [he] at hget
        cases hget
      rw [s.amGet_find id (hk key List.mem_cons_self) hr] at hget
      cases path with
      | nil =>
        have hlast : next = r := by
          rcases hstep with ⟨rfl, rfl⟩ | ⟨-, hnext⟩
          · rfl
          · cases hnext
            rfl
        subst hlast
        rw [valueAt]
        cases hf : s.find id key with
        | none =>
          rw [hf] at hget
          cases hget
          rfl
        | some v =>
          rw [hf] at hget
          exact hget
      | cons key' path =>
        rw [valueAt]
        cases hf : s.find id key with
        | none =>
          rw [hf] at hget
          cases hget
          exact (hstep.resolve_right fun hnext => hnext.1 rfl).2
        | some v =>
          rw [hf] at hget
          cases v with
          | object t id' =>
            cases hget
            have hnext := (hstep.resolve_left fun hnull => by cases hnull.1).2
            exact ih (List.cons_ne_nil _ _) (fun k hk' => hk k (List.mem_cons_of_mem key hk')) _ _ _
              rfl hnext
          | scalar v =>
            -- only NULL does not raise an error as the object of the next key
            rcases hstep with ⟨-, hnull⟩ | ⟨hnull, hnext⟩
            · exact hnull
            · cases hv : v.readable with
              | false =>
                obtain ⟨e, he⟩ := s.itemToR_unreadable hv
                cases he.symm.trans hget
              | true =>
                obtain ⟨w, hw, -⟩ := s.itemToR_scalar hv
                cases hw.symm.trans hget
                have hwn : w ≠ .null := fun hw => hnull (hw ▸ rfl)
                cases (s.amGetPathFrom_value hwn (key' :: path)).mp ⟨r, hnext⟩

end OpSet

namespace Tx

theorem null_of_deleteReport {tx : Tx A} {w : PathReport} {r : Got A} (path : List RValue) :
    ∀ (i : ℕ) (g : Got A) (id : ObjId A), getObjid g = .ok id →
      (amDeletePathFrom i tx id path).2 = .ok (some w) →
      tx.ops.amGetPathFrom g path = .ok r → r = .value .null := by
  induction path with
  | nil =>
    intro i g id _ hw _
    cases hw
  | cons key path ih =>
    intro i g id hg hw hr
    cases path with
    | nil =>
      unfold amDeletePathFrom at hw
      dsimp only at hw
      cases hd : (tx.amDelete id key).2 with
      | ok u =>
        rw [hd] at hw
        cases hw
      | error e =>
        rw [hd] at hw
        cases hw
    | cons key' path =>
      unfold amDeletePathFrom at hw
      split at hw
      · cases hw
      · rename_i id' hget
        rcases OpSet.amGetPathFrom_cons hg hget hr with ⟨-, hnull⟩ | ⟨-, hnext⟩
        · exact hnull
        · exact ih (i + 1) _ _ rfl hw hnext
      · rename_i hget
        rcases OpSet.amGetPathFrom_cons hg hget hr with ⟨-, hnull⟩ | ⟨-, hnext⟩
        · exact hnull
        · unfold OpSet.amGetPathFrom at hr
          simp only [hg, hget] at hr
          cases hr
          rfl
      · rename_i v hne hget
        rcases OpSet.amGetPathFrom_cons hg hget hr with ⟨-, hnull⟩ | ⟨-, hnext⟩
        · exact hnull
        · have hempty := (tx.ops.amGetPathFrom_value (fun hv => hne (by rw [hv])) _).mp ⟨r, hnext⟩
          cases hempty

theorem null_of_putReport {tx : Tx A} {w : PathReport} {r : Got A} {value : RValue}
    (path : List RValue) :
    ∀ (i : ℕ) (g : Got A) (id : ObjId A), getObjid g = .ok id →
      (amPutPathFrom false value i tx id path).2 = .error (.report w) →
      tx.ops.amGetPathFrom g path = .ok r → r = .value .null := by
  induction path with
  | nil =>
    intro i g id _ hw _
    cases hw
  | cons key path ih =>
    intro i g id hg hw hr
    cases path with
    | nil =>
      unfold amPutPathFrom at hw
      dsimp only at hw
      cases hd : (tx.amPut id key value).2 with
      | ok u =>
        rw [hd] at hw
        cases hw
      | error e =>
        rw [hd] at hw
        cases hw
    | cons key' path =>
      unfold amPutPathFrom at hw
      split at hw
      · cases hw
      · rename_i id' hget
        rcases OpSet.amGetPathFrom_cons hg hget hr with ⟨-, hnull⟩ | ⟨-, hnext⟩
        · exact hnull
        · exact ih (i + 1) _ _ rfl hw hnext
      · rename_i hget
        rcases OpSet.amGetPathFrom_cons hg hget hr with ⟨-, hnull⟩ | ⟨-, hnext⟩
        · exact hnull
        · unfold OpSet.amGetPathFrom at hr
          simp only [hg, hget] at hr
          cases hr
          rfl
      · rename_i v hne hget
        rcases OpSet.amGetPathFrom_cons hg hget hr with ⟨-, hnull⟩ | ⟨-, hnext⟩
        · exact hnull
        · have hempty := (tx.ops.amGetPathFrom_value (fun hv => hne (by rw [hv])) _).mp ⟨r, hnext⟩
          cases hempty

/-- **Reading a path.** On a path of single strings and numbers `am_get_path` returns the
value at the path, NULL where there is none and where `am_delete_path` or `am_put_path`
reports a component as missing or as no object, exactly when the path does not go astray. -/
theorem amGetPath_total_iff (tx : Tx A) (path : List RValue) (hne : path ≠ [])
    (hk : ∀ key ∈ path, key.isPathKey = true) :
    (∃ r, tx.ops.amGetPath path = .ok r ∧ tx.ops.readsAs (tx.ops.valueAt none path) r ∧
        ((∃ w, (tx.amDeletePath path).2 = .ok (some w) ∨
            ∃ value, (tx.amPutPath path value false).2 = .error (.report w)) →
          r = .value .null)) ↔
      tx.ops.astray none path = false := by
  have hempty : path.isEmpty = false := by simpa using hne
  have hroot : getObjid (.value .null : Got A) = .ok none := rfl
  have hiff := tx.ops.amGetPathFrom_ok_iff path hk _ _ hroot
  unfold OpSet.amGetPath amDeletePath amPutPath
  simp only [hempty, Bool.false_eq_true, if_false]
  constructor
  · rintro ⟨r, hr, -⟩
    exact hiff.mp ⟨r, hr⟩
  · intro hs
    obtain ⟨r, hr⟩ := hiff.mpr hs
    refine ⟨r, hr, tx.ops.amGetPathFrom_readsAs path hne hk _ _ r hroot hr, ?_⟩
    rintro ⟨w, hw | ⟨value, hw⟩⟩
    · exact null_of_deleteReport path 1 _ _ hroot hw hr
    · exact null_of_putReport path 1 _ _ hroot hw hr

end Tx

/-- A document that holds the string `"v"` under `"k"`. -/
def docWithString : Tx ℕ := ((Tx.new 0).amPut none keyK (.character [] [.lit "v"])).1

/-- The path `c("k", "x")` leads on from the string: `am_delete_path` reports it, and
`am_get_path` raises an error. -/
theorem amGetPath_scalar_error :
    (docWithString.amDeletePath [keyK, .character [] [.lit "x"]]).2 =
        .ok (some (.notObject 1)) ∧
      docWithString.ops.amGetPath [keyK, .character [] [.lit "x"]] =
        .error (.stop "Expected external pointer for object ID") :=
  ⟨rfl, rfl⟩

/-- A document that holds a list of one list of the string `"v"` under `"k"`. -/
def docWithLists : Tx ℕ :=
  ((Tx.new 0).amPut none keyK (.list [] [.list [] [.character [] [.lit "v"]]])).1

/-- The path `list("k", 1, 1)` is read; the path `list("k", 2, "x")` is reported at its
second component, and yields NULL. -/
theorem amGetPath_total_iff_lists :
    (∃ r, docWithLists.ops.amGetPath [keyK, .integer [] [1], .integer [] [1]] = .ok r ∧
        r = .value (.character [] [.lit "v"])) ∧
      (docWithLists.amDeletePath [keyK, .integer [] [2], .character [] [.lit "x"]]).2 =
        .ok (some (.missing 2)) ∧
      docWithLists.ops.amGetPath [keyK, .integer [] [2], .character [] [.lit "x"]] =
        .ok (.value .null) := by
  obtain ⟨r, hr, hreads, -⟩ := (Tx.amGetPath_total_iff docWithLists
    [keyK, .integer [] [1], .integer [] [1]] (by simp) (by simp [keyK, RValue.isPathKey])).mpr
    (by decide +kernel)
  obtain ⟨r', hr', -, hnull⟩ := (Tx.amGetPath_total_iff docWithLists
    [keyK, .integer [] [2], .character [] [.lit "x"]] (by simp) (by simp [keyK, RValue.isPathKey])).mpr
    (by decide +kernel)
  have hreport : (docWithLists.amDeletePath [keyK, .integer [] [2], .character [] [.lit "x"]]).2 =
      .ok (some (.missing 2)) := by decide +kernel
  refine ⟨⟨r, hr, ?_⟩, hreport, ?_⟩
  · have hvalue : docWithLists.ops.valueAt none [keyK, .integer [] [1], .integer [] [1]] =
        some (.scalar (.str "v")) := by decide +kernel
    rw [hvalue] at hreads
    exact (Except.ok.inj hreads).symm
  · rw [hr', hnull ⟨_, Or.inl hreport⟩]

end AutomergeR
