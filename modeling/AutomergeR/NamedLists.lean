import AutomergeR.ListKinds
import AutomergeR.ShownTrees

/-! # A list at the root and a list under a key

`as_automerge` looks the elements of a list up by name, `am_put` takes them one after
another. Under a name that occurs twice, or is empty or missing, they can find different
elements; and of a list without names `as_automerge` finds none.
-/

namespace AutomergeR

variable {A : Type} [LinearOrder A]

namespace RValue

/-- `x[[name]]`: the first element of exactly this name. A missing or an empty name
matches nothing, and what a list does not have is NULL. -/
def subset2 (x : RValue) (name : RString) : RValue :=
  match x with
  | .namedList _ xs =>
    if name = .na ∨ name.char = some "" then .null
    else
      match xs.find? fun p => p.1 = name with
      | some (_, v) => v
      | none => .null
  | _ => .null

end RValue

namespace Tx

/-- The loop of `as_automerge`. -/
def asAutomergeLoop (tx : Tx A) (x : RValue) : List RString → Reply A RError Unit
  | [] => (tx, .ok ())
  | name :: names =>
    match tx.amPut none (.character [] [name]) (x.subset2 name) with
    | (tx, .ok ()) => tx.asAutomergeLoop x names
    | (tx, .error e) => (tx, .error e)

/-- `as_automerge` of a list. -/
def asAutomerge (tx : Tx A) (x : RValue) : Reply A RError Unit := tx.asAutomergeLoop x x.names

/-- The elements as `as_automerge` finds them. -/
theorem asAutomergeLoop_eq (x : RValue) : ∀ (names : List RString) (tx : Tx A),
    tx.asAutomergeLoop x names = tx.populateMap none (names.map fun name => (name, x.subset2 name))
  | [], tx => by
    rw [asAutomergeLoop, List.map_nil, populateMap]
  | name :: names, tx => by
    have hput : tx.amPut none (.character [] [name]) (x.subset2 name) =
        tx.putValue none (.character [] [name]) true false (x.subset2 name) := rfl
    rw [asAutomergeLoop, List.map_cons, populateMap, hput]
    generalize tx.putValue none (.character [] [name]) true false (x.subset2 name) = reply
    obtain ⟨tx', result⟩ := reply
    cases result with
    | ok u => exact asAutomergeLoop_eq x names tx'
    | error e => rfl

end Tx

/-! ## What a map of repeated names holds -/

section

variable {k : String}

/-- The key of an element. -/
def keyOf (p : RString × RValue) : String := p.1.char.getD ""

theorem contentMap_append : ∀ (ps qs : List (RString × RValue)) (entries : List (String × Tree)),
    contentMap entries (ps ++ qs) = contentMap (contentMap entries ps) qs
  | [], _, _ => rfl
  | (name, x) :: ps, qs, entries => by
    rw [List.cons_append, contentMap, contentMap, contentMap_append ps qs]

/-- Elements of other names do not count. -/
theorem lookup_contentMap_ne : ∀ (ps : List (RString × RValue)) (entries : List (String × Tree)),
    (∀ p ∈ ps, keyOf p ≠ k) → (contentMap entries ps).lookup k = entries.lookup k
  | [], _, _ => rfl
  | (name, x) :: ps, entries, h => by
    have hne : k ≠ name.char.getD "" := fun he => h (name, x) List.mem_cons_self he.symm
    rw [contentMap, lookup_contentMap_ne ps _ fun p hp => h p (List.mem_cons_of_mem _ hp),
      Tree.lookup_putEntry, if_neg hne]

theorem overwrite_eq (old new : Tree) : old.overwrite new = old ∨ old.overwrite new = new := by
  unfold Tree.overwrite
  split
  · split
    · exact Or.inl rfl
    · exact Or.inr rfl
  · exact Or.inr rfl

/-- An entry is the content of an element of its name. -/
theorem lookup_contentMap_mem : ∀ (ps : List (RString × RValue)) (entries : List (String × Tree))
    {t : Tree}, (contentMap entries ps).lookup k = some t →
    entries.lookup k = some t ∨ ∃ p ∈ ps, keyOf p = k ∧ p.2.content = t
  | [], _, _, h => Or.inl h
  | (name, x) :: ps, entries, t, h => by
    rw [contentMap] at h
    rcases lookup_contentMap_mem ps _ h with h | ⟨p, hp, hk, ht⟩
    · rw [Tree.lookup_putEntry] at h
      split at h
      · rename_i hk
        have hnew : x.content = t → ∃ p ∈ (name, x) :: ps, keyOf p = k ∧ p.2.content = t :=
          fun ht => ⟨(name, x), List.mem_cons_self, hk.symm, ht⟩
        cases hl : entries.lookup (name.char.getD "") with
        | none =>
          rw [hl] at h
          exact Or.inr (hnew (Option.some.inj h))
        | some old =>
          rw [hl] at h
          rcases overwrite_eq old x.content with ho | ho
          · left
            rw [hk, hl, ← Option.some.inj h, ho]
          · exact Or.inr (hnew (ho.symm.trans (Option.some.inj h)))
      · exact Or.inl h
    · exact Or.inr ⟨p, List.mem_cons_of_mem _ hp, hk, ht⟩

theorem lookup_contentMap_isSome (ps : List (RString × RValue)) (entries : List (String × Tree)) :
    ((contentMap entries ps).lookup k).isSome = true ↔
      (entries.lookup k).isSome = true ∨ ∃ p ∈ ps, keyOf p = k := by
  induction ps generalizing entries with
  | nil => simp [contentMap]
  | cons p ps ih =>
    obtain ⟨name, x⟩ := p
    rw [contentMap, ih, Tree.lookup_putEntry]
    by_cases hk : k = name.char.getD ""
    · subst hk
      rw [if_pos rfl]
      constructor
      · intro _
        exact Or.inr ⟨(name, x), List.mem_cons_self, rfl⟩
      · intro _
        left
        cases entries.lookup (name.char.getD "") <;> rfl
    · rw [if_neg hk]
      constructor
      · rintro (h | ⟨p, hp, h⟩)
        · exact Or.inl h
        · exact Or.inr ⟨p, List.mem_cons_of_mem _ hp, h⟩
      · rintro (h | ⟨p, hp, h⟩)
        · exact Or.inl h
        · rcases List.mem_cons.mp hp with rfl | hp
          · exact absurd h.symm hk
          · exact Or.inr ⟨p, hp, h⟩

/-- Where overwriting never keeps the old value, the last element of the name stays. -/
theorem lookup_contentMap_last {pre post : List (RString × RValue)} {name : RString} {x : RValue}
    (hpost : ∀ p ∈ post, keyOf p ≠ name.char.getD "")
    (hover : ∀ p ∈ pre, keyOf p = name.char.getD "" →
      p.2.content.overwrite x.content = x.content) :
    (contentMap [] (pre ++ (name, x) :: post)).lookup (name.char.getD "") = some x.content := by
  rw [contentMap_append, contentMap, lookup_contentMap_ne post _ hpost, Tree.lookup_putEntry,
    if_pos rfl]
  cases hl : (contentMap [] pre).lookup (name.char.getD "") with
  | none => rfl
  | some old =>
    rcases lookup_contentMap_mem pre [] hl with h | ⟨p, hp, hk, rfl⟩
    · cases h
    · exact congrArg some (hover p hp hk)

theorem exists_last {ps : List (RString × RValue)} (h : ∃ p ∈ ps, keyOf p = k) :
    ∃ pre name x post, ps = pre ++ (name, x) :: post ∧ name.char.getD "" = k ∧
      ∀ p ∈ post, keyOf p ≠ k := by
  induction ps with
  | nil =>
    obtain ⟨p, hp, -⟩ := h
    cases hp
  | cons p ps ih =>
    by_cases hrest : ∃ p ∈ ps, keyOf p = k
    · obtain ⟨pre, name, x, post, rfl, hk, hpost⟩ := ih hrest
      exact ⟨p :: pre, name, x, post, rfl, hk, hpost⟩
    · obtain ⟨q, hq, hk⟩ := h
      have hqp : q = p := by
        rcases List.mem_cons.mp hq with hq | hq
        · exact hq
        · exact absurd ⟨q, hq, hk⟩ hrest
      subst hqp
      exact ⟨[], q.1, q.2, ps, rfl, hk, fun p hp hk => hrest ⟨p, hp, hk⟩⟩

end

/-! ## What `as_automerge` finds -/

theorem overwrite_self (t : Tree) : t.overwrite t = t := by
  rcases overwrite_eq t t with h | h <;> exact h

theorem null_overwrite (t : Tree) : (Tree.scalar .null).overwrite t = t := by
  cases t with
  | scalar v =>
    by_cases hv : v = .null
    · rw [hv]
      exact overwrite_self _
    · have hne : ScalarValue.eq .null v = false := by
        cases v <;> first | rfl | exact absurd rfl hv
      show (if _ then _ else _) = _
      rw [if_neg (by simp [hne])]
  | text | list | map => rfl

theorem overwrite_null (t : Tree) : t.overwrite (.scalar .null) = .scalar .null := by
  cases t with
  | scalar v =>
    by_cases hv : v = .null
    · rw [hv]
      exact overwrite_self _
    · have hne : ScalarValue.eq v .null = false := by
        cases v <;> first | rfl | exact absurd rfl hv
      show (if _ then _ else _) = _
      rw [if_neg (by simp [hne])]
  | text | list | map => rfl

/-- Two names of one key find the same element, or one of them finds none. -/
theorem subset2_same_key (x : RValue) {n n' : RString} (h : n.char = n'.char)
    (hn : n.char.isSome = true) :
    x.subset2 n = x.subset2 n' ∨ x.subset2 n = .null ∨ x.subset2 n' = .null := by
  have hna : x.subset2 .na = .null := by
    cases x <;> simp [RValue.subset2]
  cases n with
  | na => exact Or.inr (Or.inl hna)
  | utf8 text hnul =>
    cases n' with
    | na => exact Or.inr (Or.inr hna)
    | utf8 text' hnul' =>
      cases h
      exact Or.inl rfl
    | invalid bytes => cases h
  | invalid bytes => cases hn

/-- Of the elements of one name `as_automerge` puts what it finds under the last. -/
theorem lookup_asAutomerge {cls : List String} {xs pre post : List (RString × RValue)}
    {name : RString} {v : RValue} (hnames : ∀ p ∈ xs, p.1.char.isSome = true)
    (hxs : xs = pre ++ (name, v) :: post) (hpost : ∀ p ∈ post, keyOf p ≠ name.char.getD "") :
    (contentMap [] ((RValue.namedList cls xs).names.map fun name =>
      (name, (RValue.namedList cls xs).subset2 name))).lookup (name.char.getD "") =
      some ((RValue.namedList cls xs).subset2 name).content := by
  have hmap : (RValue.namedList cls xs).names.map (fun name =>
      (name, (RValue.namedList cls xs).subset2 name)) =
      pre.map (fun p => (p.1, (RValue.namedList cls xs).subset2 p.1)) ++
        (name, (RValue.namedList cls xs).subset2 name) ::
          post.map (fun p => (p.1, (RValue.namedList cls xs).subset2 p.1)) := by
    generalize (RValue.namedList cls xs).subset2 = find
    unfold RValue.names
    rw [hxs]
    simp [Function.comp_def]
  rw [hmap]
  have hsome : name.char.isSome = true := by
    apply hnames (name, v)
    rw [hxs]
    simp
  apply lookup_contentMap_last
  · intro p hp
    obtain ⟨q, hq, rfl⟩ := List.mem_map.mp hp
    exact hpost q hq
  · intro p hp hk
    obtain ⟨q, hq, rfl⟩ := List.mem_map.mp hp
    have hq' : q.1.char.isSome = true := by
      apply hnames q
      rw [hxs]
      exact List.mem_append_left _ hq
    have hchar : q.1.char = name.char := by
      obtain ⟨s, hs⟩ := Option.isSome_iff_exists.mp hq'
      obtain ⟨s', hs'⟩ := Option.isSome_iff_exists.mp hsome
      have hk' : q.1.char.getD "" = name.char.getD "" := hk
      rw [hs, hs'] at hk' ⊢
      exact congrArg some hk'
    dsimp only
    rcases subset2_same_key (RValue.namedList cls xs) hchar hq' with h | h | h
    · rw [h]
      exact overwrite_self _
    · rw [h]
      exact null_overwrite _
    · rw [h]
      exact overwrite_null _

/-! ## The two ways compared -/

namespace OpSet

/-- The documents show a common tree at the two values, or there are none. -/
def SameValue (s s' : OpSet A) : Option (Value A) → Option (Value A) → Prop
  | none, none => True
  | some v, some v' => ∃ t, s.Shows (fun _ => True) v t ∧ s'.Shows (fun _ => True) v' t
  | _, _ => False

/-- The value under a key of a map that is a value itself. -/
def entry (s : OpSet A) (v : Value A) (prop : String) : Option (Value A) :=
  match v with
  | .object _ id => s.mapGet (some id) prop
  | .scalar _ => none

/-- The map shows these entries. -/
structure ShowsEntries (s : OpSet A) (obj : ObjId A) (entries : List (String × Tree)) : Prop where
  some : ∀ prop t, entries.lookup prop = some t →
    ∃ v, s.mapGet obj prop = some v ∧ s.Shows (fun _ => True) v t
  none : ∀ prop, entries.lookup prop = none → s.mapGet obj prop = none

theorem ShowsMap.showsEntries {s : OpSet A} {own : OpId A → Prop} {obj : ObjId A}
    {entries : List (String × Tree)} (h : ShowsMap s own obj entries)
    (hshape : MapShape s obj (entries.map Prod.fst)) : ShowsEntries s obj entries where
  some prop t hl := by
    obtain ⟨l, l', rfl, -⟩ := List.lookup_eq_some_iff.mp hl
    obtain ⟨v, hv, ht⟩ := h.of_mem (List.mem_append_right l List.mem_cons_self)
    exact ⟨v, hv, ht.frame (fun _ _ => ⟨trivial, rfl, rfl⟩) t⟩
  none prop hl := by
    rw [← Option.not_isSome_iff_eq_none, hshape.get]
    intro hmem
    obtain ⟨⟨k, t⟩, he, rfl⟩ := List.mem_map.mp hmem
    rw [List.lookup_eq_none_iff] at hl
    simpa using hl _ he

theorem Shows.entries {s : OpSet A} {own : OpId A → Prop} {t : ObjType} {id : OpId A}
    {entries : List (String × Tree)} (h : Shows s own (.object t id) (.map entries)) :
    ShowsEntries s (some id) entries := by
  obtain ⟨id', hv, -, hshape, hmap⟩ := h
  cases hv
  exact hmap.showsEntries hshape

theorem Shows.noEntries {s : OpSet A} {own : OpId A → Prop} {t : ObjType} {id : OpId A}
    {ts : List Tree} (h : Shows s own (.object t id) (.list ts)) : ShowsEntries s (some id) [] := by
  obtain ⟨id', hv, -, ht, -⟩ := h
  cases hv
  refine ⟨(by intro prop t hl; cases hl), fun prop _ => ?_⟩
  unfold mapGet
  rw [ht]

/-- Two maps that show their entries have the same values at a key when the entries do. -/
theorem sameValue_iff {s s' : OpSet A} {obj obj' : ObjId A} {es es' : List (String × Tree)}
    (h : ShowsEntries s obj es) (h' : ShowsEntries s' obj' es') (prop : String) :
    SameValue s s' (s.mapGet obj prop) (s'.mapGet obj' prop) ↔
      match es.lookup prop, es'.lookup prop with
      | .some t, .some t' => Tree.Same t t'
      | .none, .none => True
      | _, _ => False := by
  cases hl : es.lookup prop with
  | none =>
    rw [h.none prop hl]
    cases hl' : es'.lookup prop with
    | none =>
      rw [h'.none prop hl']
      simp [SameValue]
    | some t' =>
      obtain ⟨v', hv', -⟩ := h'.some prop t' hl'
      rw [hv']
      simp [SameValue]
  | some t =>
    obtain ⟨v, hv, ht⟩ := h.some prop t hl
    rw [hv]
    cases hl' : es'.lookup prop with
    | none =>
      rw [h'.none prop hl']
      simp [SameValue]
    | some t' =>
      obtain ⟨v', hv', ht'⟩ := h'.some prop t' hl'
      rw [hv']
      constructor
      · rintro ⟨u, hu, hu'⟩
        exact Tree.Same.trans t (ht.unique t hu) (hu'.unique u ht')
      · intro hsame
        exact ⟨t, ht, Shows.same t hsame ht'⟩

end OpSet

/-- A list without names is empty; and under each name (at its last occurrence) `x[[name]]`
has the content that the elements of the name leave in a map. A list that passes for a time has no names in the document. -/
def NamesLead : RValue → Prop
  | .list _ xs => xs = []
  | .namedList cls xs => "POSIXct" ∉ cls ∧
      ∀ pre name v post, xs = pre ++ (name, v) :: post →
        (∀ p ∈ post, keyOf p ≠ name.char.getD "") →
        ∃ t, (contentMap [] xs).lookup (name.char.getD "") = some t ∧
          Tree.Same ((RValue.namedList cls xs).subset2 name).content t
  | _ => True

theorem namesLead_iff {cls : List String} {xs : List (RString × RValue)}
    (hnames : ∀ p ∈ xs, p.1.char.isSome = true) (hcls : "POSIXct" ∉ cls) :
    NamesLead (.namedList cls xs) ↔ ∀ prop,
      match (contentMap [] ((RValue.namedList cls xs).names.map fun name =>
        (name, (RValue.namedList cls xs).subset2 name))).lookup prop,
        (contentMap [] xs).lookup prop with
      | some t, some t' => Tree.Same t t'
      | none, none => True
      | _, _ => False := by
  constructor
  · rintro ⟨-, h⟩ prop
    by_cases hkey : ∃ p ∈ xs, keyOf p = prop
    · obtain ⟨pre, name, v, post, hxs, rfl, hpost⟩ := exists_last hkey
      obtain ⟨t, ht, hsame⟩ := h pre name v post hxs hpost
      rw [lookup_asAutomerge hnames hxs hpost, ht]
      exact hsame
    · have hnone : (contentMap [] xs).lookup prop = none := by
        rw [← Option.not_isSome_iff_eq_none, lookup_contentMap_isSome]
        simpa using hkey
      have hnone' : (contentMap [] ((RValue.namedList cls xs).names.map fun name =>
          (name, (RValue.namedList cls xs).subset2 name))).lookup prop = none := by
        rw [← Option.not_isSome_iff_eq_none, lookup_contentMap_isSome]
        rintro (h | ⟨p, hp, hk⟩)
        · cases h
        · obtain ⟨name, hname, rfl⟩ := List.mem_map.mp hp
          obtain ⟨q, hq, rfl⟩ := List.mem_map.mp hname
          exact hkey ⟨q, hq, hk⟩
      rw [hnone, hnone']
      trivial
  · refine fun h => ⟨hcls, fun pre name v post hxs hpost => ?_⟩
    have hprop := h (name.char.getD "")
    rw [lookup_asAutomerge hnames hxs hpost] at hprop
    cases hl : (contentMap [] xs).lookup (name.char.getD "") with
    | none =>
      rw [hl] at hprop
      exact hprop.elim
    | some t =>
      rw [hl] at hprop
      exact ⟨t, rfl, hprop⟩

/-- A list that can be stored becomes an object, unless it passes for a time. -/
theorem encoding_of_list {v : RValue} (h : v.isAtom = false) (hs : v.storable = true) :
    (v.inherits "POSIXct" = false ∧ ∃ t, encoding v = .object t) ∨
      v.inherits "POSIXct" = true ∧ v.length = 1 ∧ ∃ w, encoding v = .item (.scalar w) := by
  have hcases : ∀ e, encoding v = e → e.storable = true →
      (v.inherits "POSIXct" = false ∧ ∃ t, e = .object t) ∨
        v.inherits "POSIXct" = true ∧ v.length = 1 ∧ ∃ w, e = .item (.scalar w) := by
    rintro e rfl hsto
    unfold encoding at hsto ⊢
    by_cases hp : v.inherits "POSIXct" = true
    · rw [if_pos hp] at hsto ⊢
      by_cases hl : v.length = 1
      · rw [if_neg (not_not.mpr hl)] at hsto ⊢
        exact Or.inr ⟨hp, hl, _, rfl⟩
      · rw [if_pos hl] at hsto
        cases hsto
    · left
      refine ⟨Bool.eq_false_iff.mpr hp, ?_⟩
      rw [if_neg hp] at hsto ⊢
      by_cases hc : v.inherits "am_counter" = true
      · rw [if_pos hc] at hsto
        cases v <;> first | cases hsto | cases h
      · rw [if_neg hc] at hsto ⊢
        by_cases ht : v.inherits "am_text_type" = true
        · rw [if_pos ht] at hsto
          cases v <;> first | cases hsto | cases h
        · rw [if_neg ht]
          cases v with
          | list | namedList => exact ⟨_, rfl⟩
          | null | logical | integer | double | character | raw | other => cases h
  apply hcases _ rfl
  cases v with
  | list | namedList =>
    unfold RValue.storable at hs
    split at hs
    · rename_i he
      rw [he]
      rfl
    · exact hs
  | null | logical | integer | double | character | raw | other => cases h

namespace Tx

/-- An object put at a key is read back there, and so is a scalar. -/
theorem mapGet_putValue {tx tx' : Tx A} (h : tx.Fresh) {obj : ObjId A} {prop : String}
    {name : RString} (hname : name.char = some prop) {value : RValue} {item : Item}
    (hmap : tx.ops.objectType obj = some .map) (hitem : itemOf value = some item)
    (heq : tx.putValue obj (.character [] [name]) true false value = (tx', .ok ())) :
    ∃ v, tx'.ops.mapGet obj prop = some v ∧
      match item with
      | .object t => v = .object t tx.nextId
      | _ => ∃ w, v = .scalar w := by
  have hw := writes_putValue value h obj (.character [] [name]) true false
  rw [heq] at hw
  have hm := h.made hmap
  obtain ⟨sl, item', tx₁, id, hsl, hitem', hput, hrest⟩ := putValue_item h heq
  rw [slot_name] at hsl
  cases hsl
  cases hitem.symm.trans hitem'
  obtain ⟨prop', hprop, -, -, r, hvis, hlead⟩ := putItem_key_set h hput
  cases hname.symm.trans hprop
  have hrows : tx'.ops.rows obj = tx₁.ops.rows obj := by
    rcases hrest with ⟨t, -, hc, hw'⟩ | rfl
    · exact hw'.rows _ (ne_nextId hm).symm (hm.mono hc.writes.next)
    · rfl
  refine ⟨r.value, ?_, ?_⟩
  · rw [OpSet.mapGet_of_visible ((hw.objectType _ hm).trans hmap), hrows, hvis]
    rfl
  · generalize haction : item.action = action at hlead
    cases hlead with
    | new hid ha hs _ =>
      have ha' : r.action = item.action := ha.trans haction.symm
      cases item with
      | object t =>
        rw [Row.value_make ha', hid]
      | scalar v => exact ⟨v, Row.value_put ha' hs⟩
      | str text => exact ⟨_, Row.value_put ha' hs⟩
    | kept _ hv =>
      cases item with
      | object t => cases haction
      | scalar | str => exact ⟨_, hv.value⟩

/-- The root of a new document has no entries. -/
theorem fillsMap_new (actor : A) : OpSet.FillsMap (Tx.new actor).ops
    (Since (Tx.new actor).nextId.counter (Tx.new actor)) none [] :=
  ⟨rfl, MapRows.nil, List.nodup_nil, fun prop _ => rfl, fun prop t hl => by cases hl⟩

/-- The root as `as_automerge` builds it from a list with names. -/
theorem asAutomerge_showsEntries {actor : A} {tx : Tx A} {cls : List String}
    {xs : List (RString × RValue)}
    (h : (Tx.new actor).asAutomerge (.namedList cls xs) = (tx, .ok ())) :
    OpSet.ShowsEntries tx.ops none (contentMap [] ((RValue.namedList cls xs).names.map fun name =>
      (name, (RValue.namedList cls xs).subset2 name))) ∧ ∀ p ∈ xs, p.1.char.isSome = true := by
  have hloop := (asAutomergeLoop_eq (.namedList cls xs) _ (Tx.new actor)).symm.trans h
  have hfill := fills_populateMap _ (fresh_new actor) (by simp) le_rfl (fillsMap_new actor) hloop
  obtain ⟨hshape, hmap⟩ := hfill.shows_entries
  refine ⟨hmap.showsEntries hshape, fun p hp => ?_⟩
  have hs := (storable_of_populateMap _ (fresh_new actor) hloop).2
  rw [storableNamed_iff] at hs
  apply hs.1
  rw [List.map_map]
  exact List.mem_map.mpr ⟨p.1, List.mem_map_of_mem hp, rfl⟩

/-- A list that passes for a time is one value under the key, with nothing in it. -/
theorem asAutomerge_time {actor : A} {tx tx₁ tx₂ : Tx A} (h : tx.Fresh) {x : RValue}
    (hx : x.isAtom = false) (h₁ : (Tx.new actor).asAutomerge x = (tx₁, .ok ()))
    (h₂ : tx.putValue none keyK true false x = (tx₂, .ok ())) (hcls : x.inherits "POSIXct" = true)
    (hlen : x.length = 1) {w : ScalarValue} (henc : encoding x = .item (.scalar w)) :
    ((∀ prop, OpSet.SameValue tx₁.ops tx₂.ops (tx₁.ops.mapGet none prop)
        ((tx₂.ops.mapGet none "k").bind fun v => tx₂.ops.entry v prop)) ∧
      (x.names = [] → x.elements ≠ [] → ∃ prop, (tx₁.ops.mapGet none prop).isSome = true)) ↔
      NamesLead x := by
  have hitem : itemOf x = some (.scalar w) := by
    unfold itemOf
    rw [henc]
  obtain ⟨v, hget, w', rfl⟩ := mapGet_putValue h rfl rfl hitem h₂
  cases x with
  | list cls xs =>
    cases h₁
    have hne : xs ≠ [] := by
      rintro rfl
      cases hlen
    refine ⟨fun hlost => ?_, fun hnil => absurd hnil hne⟩
    obtain ⟨prop, hprop⟩ := hlost.2 rfl hne
    cases hprop
  | namedList cls xs =>
    obtain ⟨hroot, hnames⟩ := asAutomerge_showsEntries h₁
    refine ⟨fun hsame => ?_, fun hlead => absurd (of_decide_eq_true hcls) hlead.1⟩
    obtain ⟨p, hp⟩ : ∃ p, p ∈ xs := by
      apply List.exists_mem_of_ne_nil
      rintro rfl
      cases hlen
    obtain ⟨pre, name, v, post, hxs, hk, hpost⟩ := exists_last (k := keyOf p) ⟨p, hp, rfl⟩
    rw [← hk] at hpost
    obtain ⟨v', hv', -⟩ := hroot.some _ _ (lookup_asAutomerge hnames hxs hpost)
    have hprop := hsame.1 (name.char.getD "")
    rw [hv', hget] at hprop
    exact hprop.elim
  | null | logical | integer | double | character | raw | other => cases hx

/-- **Under every key the root holds the same value as the map, and a list without names
is not lost, exactly when names lead to the elements they belong to.** -/
theorem asAutomerge_amPut_iff {actor : A} {tx tx₁ tx₂ : Tx A} (h : tx.Fresh) {x : RValue}
    (hx : x.isAtom = false) (h₁ : (Tx.new actor).asAutomerge x = (tx₁, .ok ()))
    (h₂ : tx.amPut none keyK x = (tx₂, .ok ())) :
    ((∀ prop, OpSet.SameValue tx₁.ops tx₂.ops (tx₁.ops.mapGet none prop)
        ((tx₂.ops.mapGet none "k").bind fun v => tx₂.ops.entry v prop)) ∧
      (x.names = [] → x.elements ≠ [] → ∃ prop, (tx₁.ops.mapGet none prop).isSome = true)) ↔
      NamesLead x := by
  have hput : tx.putValue none keyK true false x = (tx₂, .ok ()) := h₂
  rcases encoding_of_list hx (storable_of_putValue x h hput) with
    ⟨hcls, t, henc⟩ | ⟨hcls, hlen, w, henc⟩
  case inr => exact asAutomerge_time h hx h₁ hput hcls hlen henc
  have hitem : itemOf x = some (.object t) := by
    unfold itemOf
    rw [henc]
  obtain ⟨v, hget, rfl⟩ := mapGet_putValue h rfl rfl hitem hput
  have hshows := shows_putValue x h hput hitem
  rw [hget]
  cases x with
  | list cls xs =>
    cases h₁
    have hroot : ∀ prop, (Tx.new actor).ops.mapGet none prop = none := fun prop => rfl
    have hentries : OpSet.ShowsEntries tx₂.ops (some tx.nextId) [] := by
      unfold RValue.content at hshows
      rw [henc] at hshows
      rcases encoding_object henc with rfl | rfl
      · exact hshows.noEntries
      · exact hshows.entries
    have hnone : ∀ prop, tx₂.ops.mapGet (some tx.nextId) prop = none :=
      fun prop => hentries.none prop rfl
    constructor
    · rintro ⟨-, hlost⟩
      by_contra hne
      obtain ⟨prop, hprop⟩ := hlost rfl hne
      rw [hroot] at hprop
      cases hprop
    · intro hnil
      refine ⟨fun prop => ?_, fun _ hne => absurd hnil hne⟩
      rw [hroot]
      show OpSet.SameValue _ _ none (tx₂.ops.mapGet (some tx.nextId) prop)
      rw [hnone]
      trivial
  | namedList cls xs =>
    obtain ⟨hroot, hnames⟩ := asAutomerge_showsEntries h₁
    have hentries : OpSet.ShowsEntries tx₂.ops (some tx.nextId) (contentMap [] xs) := by
      unfold RValue.content at hshows
      rw [henc] at hshows
      rcases encoding_object henc with rfl | rfl
      · have hxs := storable_of_putValue _ h hput
        unfold RValue.storable at hxs
        rw [henc] at hxs
        have hnil : xs = [] := by simpa using (Bool.and_eq_true_iff.mp hxs).1
        subst hnil
        exact hshows.noEntries
      · exact hshows.entries
    have hposix : "POSIXct" ∉ cls := of_decide_eq_false hcls
    rw [namesLead_iff hnames hposix]
    constructor
    · rintro ⟨hsame, -⟩ prop
      exact (OpSet.sameValue_iff hroot hentries prop).mp (hsame prop)
    · intro hsame
      refine ⟨fun prop => (OpSet.sameValue_iff hroot hentries prop).mpr (hsame prop), ?_⟩
      intro hnil hne
      have hxs : xs = [] := List.map_eq_nil_iff.mp hnil
      subst hxs
      exact absurd rfl hne
  | null | logical | integer | double | character | raw | other => cases hx

end Tx

/-- `list(a = 1L, a = 2L)`. -/
def repeatedNames : RValue :=
  .namedList [] [(.lit "a", .integer [] [1]), (.lit "a", .integer [] [2])]

/-- `list(1L)`. -/
def unnamedOne : RValue := .list [] [.integer [] [1]]

theorem asAutomerge_amPut_iff_repeated :
    let tx₁ := ((Tx.new 0).asAutomerge repeatedNames).1
    let tx₂ := ((Tx.new 0).amPut none keyK repeatedNames).1
    ((∀ prop, OpSet.SameValue tx₁.ops tx₂.ops (tx₁.ops.mapGet none prop)
        ((tx₂.ops.mapGet none "k").bind fun v => tx₂.ops.entry v prop)) ∧
      (repeatedNames.names = [] → repeatedNames.elements ≠ [] →
        ∃ prop, (tx₁.ops.mapGet none prop).isSome = true)) ↔ NamesLead repeatedNames := by
  intro tx₁ tx₂
  have h₁ : (Tx.new 0).asAutomerge repeatedNames = (tx₁, .ok ()) := Prod.ext rfl (by decide)
  have h₂ : (Tx.new 0).amPut none keyK repeatedNames = (tx₂, .ok ()) := Prod.ext rfl (by decide)
  exact Tx.asAutomerge_amPut_iff (Tx.fresh_new 0) rfl h₁ h₂

/-- Of two elements `a` the root has the first and the map the second; the root of
`list(1L)` is empty. -/
theorem asAutomerge_loses :
    (let tx₁ := ((Tx.new 0).asAutomerge repeatedNames).1
     let tx₂ := ((Tx.new 0).amPut none keyK repeatedNames).1
     (Tx.new 0).asAutomerge repeatedNames = (tx₁, .ok ()) ∧
      (Tx.new 0).amPut none keyK repeatedNames = (tx₂, .ok ()) ∧
      ¬ ∀ prop, OpSet.SameValue tx₁.ops tx₂.ops (tx₁.ops.mapGet none prop)
        ((tx₂.ops.mapGet none "k").bind fun v => tx₂.ops.entry v prop)) ∧
    (let tx₁ := ((Tx.new 0).asAutomerge unnamedOne).1
     let tx₂ := ((Tx.new 0).amPut none keyK unnamedOne).1
     (Tx.new 0).asAutomerge unnamedOne = (tx₁, .ok ()) ∧
      (Tx.new 0).amPut none keyK unnamedOne = (tx₂, .ok ()) ∧
      unnamedOne.names = [] ∧ unnamedOne.elements ≠ [] ∧
      ¬ ∃ prop, (tx₁.ops.mapGet none prop).isSome = true) := by
  refine ⟨⟨Prod.ext rfl (by decide), Prod.ext rfl (by decide), fun hsame => ?_⟩,
    ⟨Prod.ext rfl (by decide), Prod.ext rfl (by decide), rfl, by simp [unnamedOne, RValue.elements], ?_⟩⟩
  · have hroot : ((Tx.new 0).asAutomerge repeatedNames).1.ops.mapGet none "a" =
        some (.scalar (.int 1)) := by decide
    have hmap : ((((Tx.new 0).amPut none keyK repeatedNames).1.ops.mapGet none "k").bind
        fun v => ((Tx.new 0).amPut none keyK repeatedNames).1.ops.entry v "a") =
          some (.scalar (.int 2)) := by decide
    have ha := hsame "a"
    rw [hroot, hmap] at ha
    obtain ⟨t, h₁, h₂⟩ := ha
    cases t with
    | scalar v =>
      have h₁ : Value.scalar (.int 1) = (Value.scalar v : Value ℕ) := h₁
      have h₂ : Value.scalar (.int 2) = (Value.scalar v : Value ℕ) := h₂
      cases h₁.trans h₂.symm
    | text | list | map =>
      obtain ⟨_, hv, _⟩ := h₁
      cases hv
  · rintro ⟨prop, hprop⟩
    cases hprop

end AutomergeR
