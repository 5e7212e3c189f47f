import AutomergeR.FailedPut
import AutomergeR.StoredTree

/-! # The container a list becomes

`am_put_value` chooses the container of a list from its class first and its names second;
`populate_object_from_r_list` fills it by the names alone. The two disagree on a list made
by `am_list` with names.
-/

namespace AutomergeR

variable {A : Type} [LinearOrder A]

/-! ## Lists as R code builds them -/

/-- The classes by which `am_put_value` tells values apart. -/
def markerClasses : List String :=
  ["POSIXct", "am_counter", "am_text_type", "am_list_type", "am_map_type"]

/-- The function that made a list value. -/
inductive ListKind where
  | amList
  | amMap
  | plain

/-- A list made by `am_list(...)`, by `am_map(...)` with distinct names that are not empty
(or without arguments), or one of another class or none. -/
inductive Built : ListKind → RValue → Prop where
  | amList (xs : List RValue) : Built .amList (.list ["am_list_type", "list"] xs)
  | amListNamed (xs : List (RString × RValue)) :
    Built .amList (.namedList ["am_list_type", "list"] xs)
  | amMap (xs : List (RString × RValue)) (distinct : (xs.map fun p => p.1.char.getD "").Nodup)
    (nonempty : ∀ p ∈ xs, p.1.char ≠ some "") : Built .amMap (.namedList ["am_map_type", "list"] xs)
  | amMapEmpty : Built .amMap (.list ["am_map_type", "list"] [])
  | plain (cls : List String) (xs : List RValue) (h : ∀ c ∈ markerClasses, c ∉ cls) :
    Built .plain (.list cls xs)
  | plainNamed (cls : List String) (xs : List (RString × RValue))
    (h : ∀ c ∈ markerClasses, c ∉ cls) : Built .plain (.namedList cls xs)

namespace RValue

def elements : RValue → List RValue
  | .list _ xs => xs
  | .namedList _ xs => xs.map Prod.snd
  | _ => []

def names : RValue → List RString
  | .namedList _ xs => xs.map Prod.fst
  | _ => []

end RValue

/-- What a list is to be stored as: the elements of `am_list` in a list, those of `am_map`
in a map, those of a plain list in a map when they have names. -/
def ListKind.tree : ListKind → RValue → Tree
  | .amList, v => .list (v.elements.map RValue.content)
  | .amMap, v => .map ((v.names.map fun name => name.char.getD "").zip (v.elements.map RValue.content))
  | .plain, .namedList _ xs => .map (contentMap [] xs)
  | .plain, v => .list (v.elements.map RValue.content)

theorem contentList_eq_map (xs : List RValue) : contentList xs = xs.map RValue.content := by
  induction xs with
  | nil => rfl
  | cons x xs ih => rw [contentList, ih, List.map_cons]

theorem putEntry_new : ∀ {entries : List (String × Tree)} {k : String} (t : Tree),
    k ∉ entries.map Prod.fst → Tree.putEntry entries k t = entries ++ [(k, t)]
  | [], _, _, _ => rfl
  | (k', t') :: entries, k, t, h => by
    rw [List.map_cons, List.mem_cons, not_or] at h
    unfold Tree.putEntry
    rw [if_neg (Ne.symm h.1), putEntry_new t h.2]
    rfl

/-- With distinct names every element has an entry of its own. -/
theorem contentMap_distinct : ∀ (xs : List (RString × RValue)) (entries : List (String × Tree)),
    (entries.map Prod.fst ++ xs.map fun p => p.1.char.getD "").Nodup →
    contentMap entries xs = entries ++ xs.map fun p => (p.1.char.getD "", p.2.content)
  | [], entries, _ => by rw [contentMap, List.map_nil, List.append_nil]
  | (name, x) :: xs, entries, h => by
    have hnot : name.char.getD "" ∉ entries.map Prod.fst := by
      intro hmem
      exact (List.nodup_append.mp h).2.2 _ hmem _ List.mem_cons_self rfl
    rw [contentMap, putEntry_new _ hnot, contentMap_distinct xs]
    · simp
    · rw [List.map_append, List.append_assoc]
      exact h

/-! ## The two decisions -/

/-- The container `am_put_value` chooses. -/
def ListKind.container : ListKind → (named : Bool) → ObjType
  | .amList, _ => .list
  | .amMap, _ => .map
  | .plain, named => if named then .map else .list

theorem encoding_built {kind : ListKind} {value : RValue} (h : Built kind value) :
    (∃ cls xs, value = .list cls xs ∧ encoding value = .object (kind.container false)) ∨
      ∃ cls xs, value = .namedList cls xs ∧ encoding value = .object (kind.container true) := by
  have hplain : ∀ {v : RValue}, (∀ c ∈ markerClasses, c ∉ v.cls) →
      v.inherits "POSIXct" = false ∧ v.inherits "am_counter" = false ∧
        v.inherits "am_text_type" = false ∧ v.inherits "am_list_type" = false ∧
          v.inherits "am_map_type" = false := by
    intro v hv
    simpa [markerClasses, RValue.inherits] using hv
  cases h with
  | amList xs => exact Or.inl ⟨_, xs, rfl, rfl⟩
  | amListNamed xs => exact Or.inr ⟨_, xs, rfl, rfl⟩
  | amMap xs => exact Or.inr ⟨_, xs, rfl, rfl⟩
  | amMapEmpty => exact Or.inl ⟨_, [], rfl, rfl⟩
  | plain cls xs hc =>
    obtain ⟨h₁, h₂, h₃, h₄, h₅⟩ := hplain (v := .list cls xs) hc
    refine Or.inl ⟨cls, xs, rfl, ?_⟩
    simp [encoding, nestedType, ListKind.container, h₁, h₂, h₃, h₄, h₅]
  | plainNamed cls xs hc =>
    obtain ⟨h₁, h₂, h₃, h₄, h₅⟩ := hplain (v := .namedList cls xs) hc
    refine Or.inr ⟨cls, xs, rfl, ?_⟩
    simp [encoding, nestedType, ListKind.container, h₁, h₂, h₃, h₄, h₅]

theorem storableList_iff (xs : List RValue) :
    storableList xs = true ↔ ∀ x ∈ xs, x.storable = true := by
  induction xs with
  | nil => simp [storableList]
  | cons x xs ih => rw [storableList, Bool.and_eq_true, ih, List.forall_mem_cons]

theorem storableNamed_iff (xs : List (RString × RValue)) : storableNamed xs = true ↔
    (∀ name ∈ xs.map Prod.fst, name.char.isSome = true) ∧
      ∀ x ∈ xs.map Prod.snd, x.storable = true := by
  induction xs with
  | nil => simp [storableNamed]
  | cons p xs ih =>
    obtain ⟨name, x⟩ := p
    rw [storableNamed, Bool.and_eq_true, Bool.and_eq_true, ih, List.map_cons,
      List.map_cons, List.forall_mem_cons, List.forall_mem_cons]
    constructor
    · rintro ⟨⟨hn, hx⟩, hns, hxs⟩
      exact ⟨⟨hn, hns⟩, hx, hxs⟩
    · rintro ⟨⟨hn, hns⟩, hx, hxs⟩
      exact ⟨⟨hn, hx⟩, hns, hxs⟩

/-- The names are UTF-8, and they are used only where the container is a map. -/
theorem storable_built {kind : ListKind} {value : RValue} (h : Built kind value)
    (hs : ∀ x ∈ value.elements, x.storable = true) :
    value.storable = true ↔
      (kind = .amList → value.names = []) ∧ ∀ name ∈ value.names, name.char.isSome = true := by
  rcases encoding_built h with ⟨cls, xs, rfl, henc⟩ | ⟨cls, xs, rfl, henc⟩
  · have hxs := (storableList_iff xs).mpr hs
    have hnil : xs = [] ∨ kind.container false = .list := by
      cases h with
      | amList | plain => exact Or.inr rfl
      | amMapEmpty => exact Or.inl rfl
    unfold RValue.storable
    simp only [henc, hxs, RValue.names, Bool.and_true, Bool.or_eq_true, List.isEmpty_iff,
      decide_eq_true_eq, List.not_mem_nil, false_imp_iff, implies_true, and_self, iff_true]
    exact hnil
  · have hcontainer : kind.container true = .map ↔ kind ≠ .amList := by
      cases kind <;> simp [ListKind.container]
    unfold RValue.storable
    simp only [henc, Bool.and_eq_true, Bool.or_eq_true, List.isEmpty_iff, decide_eq_true_eq,
      storableNamed_iff, hcontainer, RValue.names, List.map_eq_nil_iff]
    constructor
    · rintro ⟨hkind, hnames, -⟩
      exact ⟨fun hk => hkind.resolve_right (not_not.mpr hk), hnames⟩
    · rintro ⟨hkind, hnames⟩
      exact ⟨(em (kind = .amList)).imp_left hkind, hnames, hs⟩

/-- What is stored has the content the kind of the list asks for. -/
theorem content_built {kind : ListKind} {value : RValue} (h : Built kind value)
    (hnames : kind = .amList → value.names = []) : value.content = kind.tree value := by
  rcases encoding_built h with ⟨cls, xs, rfl, henc⟩ | ⟨cls, xs, rfl, henc⟩
  · unfold RValue.content
    rw [henc]
    cases h with
    | amList | plain => exact congrArg Tree.list (contentList_eq_map xs)
    | amMapEmpty => rfl
  · unfold RValue.content
    rw [henc]
    cases h with
    | amListNamed =>
      have hnil : xs = [] := List.map_eq_nil_iff.mp (hnames rfl)
      subst hnil
      rfl
    | amMap _ distinct nonempty =>
      show Tree.map (contentMap [] xs) = _
      rw [contentMap_distinct xs [] distinct]
      simp [ListKind.tree, RValue.names, RValue.elements, List.zip_map']
    | plainNamed => rfl

namespace Tx

/-- The value is stored where an object with this content is shown. -/
def StoresAs (tx : Tx A) (obj : ObjId A) (key : RValue) (isMap forceInsert : Bool)
    (value : RValue) (tree : Tree) : Prop :=
  ∃ tx', tx.putValue obj key isMap forceInsert value = (tx', .ok ()) ∧
    ∃ r ∈ tx'.ops.rows obj, r.id = tx.nextId ∧ r.visible = true ∧
      tx'.ops.Shows (Since tx.nextId.counter tx') r.value tree

/-- What can be stored is stored wherever an object is accepted. -/
theorem storable_iff_succeeds {tx : Tx A} (h : tx.Fresh) {obj : ObjId A} {key : RValue}
    {isMap forceInsert : Bool} {sl : Slot} (hsl : slot isMap key forceInsert = .ok sl)
    (ha : tx.accepts obj sl = true) (value : RValue) :
    value.storable = true ↔ Succeeds (tx.putValue obj key isMap forceInsert value) := by
  constructor
  · exact putValue_succeeds value h hsl ha
  · rintro ⟨tx', u, heq⟩
    exact storable_of_putValue value h heq

/-- An object that has been stored is shown with its content. -/
theorem storesAs_content {tx tx' : Tx A} (h : tx.Fresh) {obj : ObjId A} {key : RValue}
    {isMap forceInsert : Bool} {value : RValue} {t : ObjType} (henc : encoding value = .object t)
    (heq : tx.putValue obj key isMap forceInsert value = (tx', .ok ())) :
    tx.StoresAs obj key isMap forceInsert value value.content := by
  have hitem : itemOf value = some (.object t) := by
    unfold itemOf
    rw [henc]
  obtain ⟨sl, item, tx₁, id, hsl, hitem', hput, hrest⟩ := putValue_item h heq
  rw [hitem] at hitem'
  cases hitem'
  obtain ⟨hok, herr⟩ := makes_putItem h obj sl t
  cases ha : tx.accepts obj sl with
  | false =>
    obtain ⟨e, he⟩ := herr ha
    rw [hput] at he
    cases he
  | true =>
    obtain ⟨tx₂, hput', hc⟩ := hok ha
    rw [hput] at hput'
    cases hput'
    obtain ⟨r, hr, hid, haction, hvis⟩ := hc.shown
    have hrows : tx'.ops.rows obj = tx₁.ops.rows obj := by
      rcases hrest with ⟨_, _, _, hw⟩ | rfl
      · have hm := made_of_accepts h ha
        exact hw.rows _ (ne_nextId hm).symm (hm.mono hc.writes.next)
      · rfl
    refine ⟨tx', heq, r, hrows ▸ hr, hid, hvis, ?_⟩
    rw [Row.value_make haction, hid]
    exact shows_putValue value h heq hitem

/-- **The container and the way it is filled agree, and the list is stored, unless
`am_list` has been given names (or a name is not UTF-8).** Elements of a nested list are
put by the same function. -/
theorem putValue_storesAs_iff {tx : Tx A} (h : tx.Fresh) {obj : ObjId A} {key : RValue}
    {isMap forceInsert : Bool} {sl : Slot} (hsl : slot isMap key forceInsert = .ok sl)
    (ha : tx.accepts obj sl = true) {kind : ListKind} {value : RValue} (hb : Built kind value)
    (hs : ∀ x ∈ value.elements, x.storable = true) :
    tx.StoresAs obj key isMap forceInsert value (kind.tree value) ↔
      (kind = .amList → value.names = []) ∧ ∀ name ∈ value.names, name.char.isSome = true := by
  rw [← storable_built hb hs, storable_iff_succeeds h hsl ha]
  constructor
  · rintro ⟨tx', heq, -⟩
    exact ⟨tx', (), heq⟩
  · rintro ⟨tx', u, heq⟩
    have hcontent := content_built hb
      ((storable_built hb hs).mp (storable_of_putValue value h heq)).1
    rw [← hcontent]
    rcases encoding_built hb with ⟨_, _, _, henc⟩ | ⟨_, _, _, henc⟩
    · exact storesAs_content h henc heq
    · exact storesAs_content h henc heq

end Tx

/-- `am_list(a = 1L)`. -/
def namedAmList : RValue := .namedList ["am_list_type", "list"] [(.lit "a", .integer [] [1])]

/-- `am_map(a = 1L, b = list())`. -/
def amMapAB : RValue :=
  .namedList ["am_map_type", "list"] [(.lit "a", .integer [] [1]), (.lit "b", .list [] [])]

theorem built_amMapAB : Built .amMap amMapAB :=
  .amMap _ (by decide) (by decide)

theorem putValue_storesAs_iff_map :
    (Tx.new 0).StoresAs none keyK true false amMapAB
      (.map [("a", .scalar (.int 1)), ("b", .list [])]) := by
  have hslot : slot true keyK false = .ok (.key (.lit "k")) := rfl
  have haccepts : (Tx.new 0).accepts none (.key (.lit "k")) = true := by decide
  have h := Tx.putValue_storesAs_iff (Tx.fresh_new 0) hslot haccepts built_amMapAB (by decide)
  exact h.mpr ⟨(by intro hk; cases hk), by decide⟩

/-- Its one element can be stored, but the put raises an error. -/
theorem putValue_named_amList :
    Built .amList namedAmList ∧ (∀ x ∈ namedAmList.elements, x.storable = true) ∧
      (Tx.new 0).accepts none (.key (.lit "k")) = true ∧
      ¬ (Tx.new 0).StoresAs none keyK true false namedAmList (ListKind.amList.tree namedAmList) := by
  refine ⟨.amListNamed _, by decide, by decide, ?_⟩
  rintro ⟨tx', heq, -⟩
  have herr : ((Tx.new 0).putValue none keyK true false namedAmList).2 =
      .error (.op .invalidOp) := by decide
  rw [heq] at herr
  cases herr

end AutomergeR
