import AutomergeR.StoredTree

/-! # A value shows one tree

Up to the order of the entries of maps, which no read depends on.
-/

namespace AutomergeR

variable {A : Type} [LinearOrder A]

namespace Tree

mutual

/-- Equal up to the order of map entries. -/
def Same : Tree → Tree → Prop
  | .scalar v, t' => t' = .scalar v
  | .text s, t' => t' = .text s
  | .list ts, t' => ∃ ts', t' = .list ts' ∧ SameList ts ts'
  | .map entries, t' => ∃ entries', t' = .map entries' ∧
      (entries.map Prod.fst).Perm (entries'.map Prod.fst) ∧ SameMap entries entries'

def SameList : List Tree → List Tree → Prop
  | [], ts' => ts' = []
  | t :: ts, ts' => ∃ t' us', ts' = t' :: us' ∧ Same t t' ∧ SameList ts us'

def SameMap : List (String × Tree) → List (String × Tree) → Prop
  | [], _ => True
  | (k, t) :: entries, entries' => (∀ t', (k, t') ∈ entries' → Same t t') ∧ SameMap entries entries'

end

theorem sameMap_iff (entries' : List (String × Tree)) : ∀ entries : List (String × Tree),
    SameMap entries entries' ↔ ∀ k t, (k, t) ∈ entries → ∀ t', (k, t') ∈ entries' → Same t t'
  | [] => by simp [SameMap]
  | (k, t) :: entries => by
    rw [SameMap, sameMap_iff entries' entries]
    constructor
    · rintro ⟨hhead, htail⟩ k₀ t₀ hmem
      rcases List.mem_cons.mp hmem with heq | hmem
      · cases heq
        exact hhead
      · exact htail k₀ t₀ hmem
    · intro hall
      exact ⟨hall k t List.mem_cons_self, fun k₀ t₀ hmem => hall k₀ t₀ (List.mem_cons_of_mem _ hmem)⟩

mutual

theorem Same.trans : ∀ (t : Tree) {t' t'' : Tree}, Same t t' → Same t' t'' → Same t t''
  | .scalar v, _, _, rfl, h => h
  | .text s, _, _, rfl, h => h
  | .list ts, _, _, ⟨ts', rfl, h⟩, ⟨ts'', rfl, h'⟩ => ⟨ts'', rfl, SameList.trans ts h h'⟩
  | .map entries, _, _, ⟨es', rfl, hp, h⟩, ⟨es'', rfl, hp', h'⟩ =>
    ⟨es'', rfl, hp.trans hp', SameMap.trans entries (fun k hk => hp.subset hk) h h'⟩

theorem SameList.trans : ∀ (ts : List Tree) {ts' ts'' : List Tree},
    SameList ts ts' → SameList ts' ts'' → SameList ts ts''
  | [], _, _, rfl, h => h
  | t :: ts, _, _, ⟨t', us', rfl, ht, hts⟩, ⟨t'', us'', rfl, ht', hts'⟩ =>
    ⟨t'', us'', rfl, Same.trans t ht ht', SameList.trans ts hts hts'⟩

theorem SameMap.trans : ∀ (entries : List (String × Tree)) {es' es'' : List (String × Tree)},
    (∀ k ∈ entries.map Prod.fst, k ∈ es'.map Prod.fst) → SameMap entries es' →
    SameMap es' es'' → SameMap entries es''
  | [], _, _, _, _, _ => trivial
  | (k, t) :: entries, es', es'', hk, ⟨ht, hts⟩, h' => by
    refine ⟨fun t'' ht'' => ?_, SameMap.trans entries
      (fun k' hk' => hk k' (List.mem_cons_of_mem _ hk')) hts h'⟩
    obtain ⟨⟨k', t'⟩, hmem, rfl⟩ := List.mem_map.mp (hk k List.mem_cons_self)
    exact Same.trans t (ht t' hmem) ((sameMap_iff es'' es').mp h' _ t' hmem t'' ht'')

end

end Tree

namespace OpSet

variable {s : OpSet A} {own own' : OpId A → Prop}

theorem ShowsMap.of_mem {obj : ObjId A} : ∀ {entries : List (String × Tree)},
    ShowsMap s own obj entries → ∀ {k : String} {t : Tree}, (k, t) ∈ entries →
    ∃ v, s.mapGet obj k = some v ∧ Shows s own v t
  | (_, _) :: _, ⟨hhead, htail⟩, k, t, hmem => by
    rcases List.mem_cons.mp hmem with heq | hmem
    · cases heq
      exact hhead
    · exact ShowsMap.of_mem htail hmem

mutual

/-- Two trees shown by one value are the same. -/
theorem Shows.unique : ∀ (t : Tree) {v : Value A} {t' : Tree}, Shows s own v t →
    Shows s own' v t' → Tree.Same t t'
  | .scalar w, _, .scalar w', h, h' => by
    cases h.symm.trans h'
    rfl
  | .scalar w, _, .text _, h, ⟨_, h', _⟩ => by cases h.symm.trans h'
  | .scalar w, _, .list _, h, ⟨_, h', _⟩ => by cases h.symm.trans h'
  | .scalar w, _, .map _, h, ⟨_, h', _⟩ => by cases h.symm.trans h'
  | .text str, _, .scalar _, ⟨_, h, _⟩, h' => by cases h.symm.trans h'
  | .text str, _, .text str', ⟨_, h, _, _, hs⟩, ⟨_, h', _, _, hs'⟩ => by
    cases h.symm.trans h'
    exact congrArg Tree.text (hs'.symm.trans hs)
  | .text str, _, .list _, ⟨_, h, _⟩, ⟨_, h', _⟩ => by cases h.symm.trans h'
  | .text str, _, .map _, ⟨_, h, _⟩, ⟨_, h', _⟩ => by cases h.symm.trans h'
  | .list ts, _, .scalar _, ⟨_, h, _⟩, h' => by cases h.symm.trans h'
  | .list ts, _, .text _, ⟨_, h, _⟩, ⟨_, h', _⟩ => by cases h.symm.trans h'
  | .list ts, _, .list ts', ⟨_, h, _, _, hl, hts⟩, ⟨_, h', _, _, hl', hts'⟩ => by
    cases h.symm.trans h'
    exact ⟨ts', rfl, ShowsList.unique ts (hl.symm.trans hl') hts hts'⟩
  | .list ts, _, .map _, ⟨_, h, _⟩, ⟨_, h', _⟩ => by cases h.symm.trans h'
  | .map entries, _, .scalar _, ⟨_, h, _⟩, h' => by cases h.symm.trans h'
  | .map entries, _, .text _, ⟨_, h, _⟩, ⟨_, h', _⟩ => by cases h.symm.trans h'
  | .map entries, _, .list _, ⟨_, h, _⟩, ⟨_, h', _⟩ => by cases h.symm.trans h'
  | .map entries, _, .map entries', ⟨_, h, _, hk, hes⟩, ⟨_, h', _, hk', hes'⟩ => by
    cases h.symm.trans h'
    exact ⟨entries', rfl, hk.perm.symm.trans hk'.perm, ShowsMap.unique entries hes hes'⟩

theorem ShowsList.unique {id : OpId A} : ∀ (ts : List Tree) {i : ℕ} {ts' : List Tree},
    ts.length = ts'.length → ShowsList s own id i ts → ShowsList s own' id i ts' →
    Tree.SameList ts ts'
  | [], _, [], _, _, _ => rfl
  | t :: ts, _, t' :: ts', hl, ⟨⟨v, hv, ht⟩, hts⟩, ⟨⟨v', hv', ht'⟩, hts'⟩ => by
    cases hv.symm.trans hv'
    exact ⟨t', ts', rfl, Shows.unique t ht ht',
      ShowsList.unique ts (Nat.succ.inj hl) hts hts'⟩

theorem ShowsMap.unique {obj : ObjId A} : ∀ (entries : List (String × Tree))
    {entries' : List (String × Tree)}, ShowsMap s own obj entries →
    ShowsMap s own' obj entries' → Tree.SameMap entries entries'
  | [], _, _, _ => trivial
  | (k, t) :: entries, _, ⟨⟨v, hv, ht⟩, hes⟩, hes' => by
    refine ⟨fun t' hmem => ?_, ShowsMap.unique entries hes hes'⟩
    obtain ⟨v', hv', ht'⟩ := hes'.of_mem hmem
    cases hv.symm.trans hv'
    exact Shows.unique t ht ht'

end

theorem MapShape.perm_keys {obj : ObjId A} {keys keys' : List String}
    (h : MapShape s obj keys) (hp : keys'.Perm keys) : MapShape s obj keys' :=
  ⟨h.objectType, fun prop => (h.get prop).trans hp.mem_iff.symm, h.sorted, h.perm.trans hp.symm,
    h.length.trans hp.length_eq.symm⟩

mutual

/-- What is the same as a shown tree is shown too. -/
theorem Shows.same : ∀ (t : Tree) {v : Value A} {t' : Tree}, Tree.Same t t' →
    Shows s own v t' → Shows s own v t
  | .scalar _, _, _, rfl, h => h
  | .text _, _, _, rfl, h => h
  | .list ts, _, _, ⟨ts', rfl, hs⟩, ⟨id, hv, ho, ht, hl, hts⟩ => by
    obtain ⟨hlength, hts'⟩ := ShowsList.same ts hs hts
    exact ⟨id, hv, ho, ht, hl.trans hlength.symm, hts'⟩
  | .map entries, _, _, ⟨entries', rfl, hp, hs⟩, ⟨id, hv, ho, hk, hes⟩ =>
    ⟨id, hv, ho, hk.perm_keys hp, ShowsMap.same entries (fun _ hk => hp.subset hk) hs hes⟩

theorem ShowsList.same {id : OpId A} : ∀ (ts : List Tree) {i : ℕ} {ts' : List Tree},
    Tree.SameList ts ts' → ShowsList s own id i ts' →
    ts.length = ts'.length ∧ ShowsList s own id i ts
  | [], _, _, rfl, _ => ⟨rfl, trivial⟩
  | t :: ts, _, _, ⟨t', us', rfl, ht, hts⟩, ⟨⟨v, hv, hv'⟩, hus⟩ => by
    obtain ⟨hlength, hts'⟩ := ShowsList.same ts hts hus
    exact ⟨congrArg Nat.succ hlength, ⟨v, hv, Shows.same t ht hv'⟩, hts'⟩

theorem ShowsMap.same {obj : ObjId A} : ∀ (entries : List (String × Tree))
    {entries' : List (String × Tree)}, (∀ k ∈ entries.map Prod.fst, k ∈ entries'.map Prod.fst) →
    Tree.SameMap entries entries' → ShowsMap s own obj entries' → ShowsMap s own obj entries
  | [], _, _, _, _ => trivial
  | (k, t) :: entries, _, hk, ⟨ht, hes⟩, hshows => by
    refine ⟨?_, ShowsMap.same entries (fun k' hk' => hk k' (List.mem_cons_of_mem _ hk')) hes hshows⟩
    obtain ⟨⟨k', t'⟩, hmem, rfl⟩ := List.mem_map.mp (hk k List.mem_cons_self)
    obtain ⟨v, hv, hv'⟩ := hshows.of_mem hmem
    exact ⟨v, hv, Shows.same t (ht t' hmem) hv'⟩

end

end OpSet

end AutomergeR
