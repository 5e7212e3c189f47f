import AutomergeR.AsList
import AutomergeR.NamedLists

/-! # Reading back what has been stored

`from_automerge(as_automerge(x))` for a tree of values that Automerge has a place for.
The entries of a named list come back in the order of their names.
-/

namespace AutomergeR

variable {A : Type} [LinearOrder A]

/-! ## The trees -/

/-- A string that is UTF-8 and not NA. -/
def RString.valid : RString → Bool
  | .utf8 _ _ => true
  | _ => false

/-- Lists are compared by the UTF-8 bytes of their names, which is the order of the code
points. -/
def nameLE (p q : RString × RValue) : Prop := keyOf p ≤ keyOf q

instance : DecidableRel nameLE := fun p q => inferInstanceAs (Decidable (keyOf p ≤ keyOf q))

mutual

/-- A finite tree of the values that come back. -/
def RValue.roundTrips : RValue → Bool
  | .null => true
  | .logical cls xs => cls.isEmpty && xs.length == 1 && xs.all Option.isSome
  | .integer cls xs =>
    (cls.isEmpty || cls == ["am_counter"]) && xs.length == 1 && xs.all (·.toInt != RValue.naInteger)
  | .double cls xs => cls.isEmpty && xs.length == 1
  | .character cls xs =>
    (cls.isEmpty || cls == ["am_text_type", "character"]) && xs.length == 1 && xs.all RString.valid
  | .raw cls _ => cls.isEmpty
  | .list cls xs => cls.isEmpty && roundTripsList xs
  | .namedList cls xs =>
    cls.isEmpty && decide ((xs.map keyOf).Nodup) && roundTripsNamed xs
  | .other _ _ => false

def roundTripsList : List RValue → Bool
  | [] => true
  | x :: xs => x.roundTrips && roundTripsList xs

/-- The names are valid and not empty. -/
def roundTripsNamed : List (RString × RValue) → Bool
  | [] => true
  | (name, x) :: xs => name.valid && name.char != some "" && x.roundTrips && roundTripsNamed xs

end

mutual

/-- What comes back: named lists sorted by name, a text as its string. -/
def RValue.readBack : RValue → RValue
  | .character _ xs => .character [] xs
  | .list cls xs => .list cls (readBackList xs)
  | .namedList cls xs => .namedList cls ((readBackNamed xs).insertionSort nameLE)
  | v => v

def readBackList : List RValue → List RValue
  | [] => []
  | x :: xs => x.readBack :: readBackList xs

def readBackNamed : List (RString × RValue) → List (RString × RValue)
  | [] => []
  | (name, x) :: xs => (name, x.readBack) :: readBackNamed xs

end

mutual

/-- How deep a value is nested. -/
def RValue.depth : RValue → ℕ
  | .list _ xs => depthList xs + 1
  | .namedList _ xs => depthNamed xs + 1
  | .character _ _ => 1
  | _ => 0

def depthList : List RValue → ℕ
  | [] => 0
  | x :: xs => max x.depth (depthList xs)

def depthNamed : List (RString × RValue) → ℕ
  | [] => 0
  | (_, x) :: xs => max x.depth (depthNamed xs)

end

/-! ## Reading entry by entry -/

theorem mapM_of_forall₂ {B C E : Type} {f : B → Except E C} : ∀ {as : List B} {bs : List C},
    List.Forall₂ (fun a b => f a = .ok b) as bs → as.mapM f = .ok bs
  | [], _, .nil => rfl
  | a :: as, _, .cons h hs => by
    rw [List.mapM_cons, h, mapM_of_forall₂ hs]
    rfl

theorem forall₂_through {B C D : Type} {P : B → C → Prop} {Q : C → D → Prop} :
    ∀ {as : List B} {cs : List D}, List.Forall₂ (fun a c => ∃ b, P a b ∧ Q b c) as cs →
      ∃ bs, List.Forall₂ P as bs ∧ List.Forall₂ Q bs cs
  | [], _, .nil => ⟨[], .nil, .nil⟩
  | a :: as, _, .cons ⟨b, hp, hq⟩ hs => by
    obtain ⟨bs, hps, hqs⟩ := forall₂_through hs
    exact ⟨b :: bs, .cons hp hps, .cons hq hqs⟩

namespace OpSet

/-- Reading the value gives `r`. -/
def Reads (s : OpSet A) (depth : ℕ) (v : Value A) (r : RValue) : Prop :=
  ∃ got, s.itemToR v = .ok got ∧ s.asList depth got = .ok r

theorem mkChar_utf8 (text : String) (h : '\x00' ∉ text.toList) : mkChar text = .ok (.utf8 text h) := by
  unfold mkChar
  rw [dif_pos h]

/-- A scalar comes back as it was. -/
theorem reads_scalar {s : OpSet A} {own : OpId A → Prop} {depth : ℕ} {v : Value A} {x : RValue}
    {w : ScalarValue} (hx : (encoding x).leaf = .scalar w) (hatom : x.isAtom = true)
    (hw : s.itemToR (.scalar w) = .ok (.value x)) (hs : s.Shows own v x.content) :
    s.Reads depth v x := by
  rw [RValue.content_leaf (encoding_atom x hatom), hx] at hs
  have hv : v = .scalar w := hs
  subst hv
  refine ⟨.value x, hw, ?_⟩
  unfold asList
  rfl

/-- A value that is no list comes back. -/
theorem reads_atom {s : OpSet A} {own : OpId A → Prop} {depth : ℕ} {v : Value A} {x : RValue}
    (hatom : x.isAtom = true) (hr : x.roundTrips = true) (hd : x.depth ≤ depth)
    (hs : s.Shows own v x.content) : s.Reads depth v x.readBack := by
  cases x with
  | null => exact reads_scalar rfl rfl rfl hs
  | logical cls xs =>
    unfold RValue.roundTrips at hr
    simp only [Bool.and_eq_true, List.isEmpty_iff, beq_iff_eq] at hr
    obtain ⟨⟨rfl, hlen⟩, hsome⟩ := hr
    obtain ⟨b, rfl⟩ := List.length_eq_one_iff.mp hlen
    cases b with
    | none => cases hsome
    | some b => exact reads_scalar rfl rfl rfl hs
  | integer cls xs =>
    unfold RValue.roundTrips at hr
    simp only [Bool.and_eq_true, Bool.or_eq_true, List.isEmpty_iff, beq_iff_eq] at hr
    obtain ⟨⟨hcls, hlen⟩, -⟩ := hr
    obtain ⟨n, rfl⟩ := List.length_eq_one_iff.mp hlen
    rcases hcls with rfl | rfl
    · exact reads_scalar rfl rfl (congrArg (Except.ok ∘ Got.value) (RValue.ofInt64_toInt [] n)) hs
    · exact reads_scalar rfl rfl (congrArg (Except.ok ∘ Got.value) (RValue.ofInt64_toInt _ n)) hs
  | double cls xs =>
    unfold RValue.roundTrips at hr
    simp only [Bool.and_eq_true, List.isEmpty_iff, beq_iff_eq] at hr
    obtain ⟨rfl, hlen⟩ := hr
    obtain ⟨bits, rfl⟩ := List.length_eq_one_iff.mp hlen
    exact reads_scalar rfl rfl rfl hs
  | raw cls bytes =>
    have hcls : cls = [] := List.isEmpty_iff.mp hr
    subst hcls
    exact reads_scalar rfl rfl rfl hs
  | character cls xs =>
    unfold RValue.roundTrips at hr
    simp only [Bool.and_eq_true, Bool.or_eq_true, List.isEmpty_iff, beq_iff_eq] at hr
    obtain ⟨⟨hcls, hlen⟩, hvalid⟩ := hr
    obtain ⟨text, rfl⟩ := List.length_eq_one_iff.mp hlen
    cases text with
    | na | invalid => cases hvalid
    | utf8 text hnul =>
      rcases hcls with rfl | rfl
      · have hstr : s.itemToR (.scalar (.str text)) =
            .ok (.value (.character [] [.utf8 text hnul])) := by
          dsimp only [itemToR]
          rw [dif_pos hnul]
        have hreads : s.Reads depth v (.character [] [.utf8 text hnul]) :=
          reads_scalar rfl rfl hstr hs
        exact hreads
      · -- the text object
        obtain ⟨id, rfl, -, ht, htext⟩ := hs
        refine ⟨.object (s.objectType (some id)) id, rfl, ?_⟩
        obtain ⟨depth, rfl⟩ : ∃ d, depth = d + 1 := ⟨depth - 1, by
          have : 1 ≤ depth := hd
          omega⟩
        unfold asList
        rw [ht]
        show s.amTextGet (some id) = _
        unfold amTextGet
        rw [show s.text (some id) = text from htext, mkChar_utf8 text hnul]
        rfl
  | list | namedList => cases hatom
  | other => cases hr

/-- A list whose elements read as `rs` reads as the list of them. -/
theorem reads_list {s : OpSet A} {depth : ℕ} {id : OpId A} {rs : List RValue}
    (ht : s.objectType (some id) = some .list) (hl : s.length (some id) = rs.length)
    (h : List.Forall₂ (fun i r => ∃ v, s.listGet (some id) i = some v ∧ s.Reads depth v r)
      (List.range rs.length) rs) :
    s.Reads (depth + 1) (.object .list id) (.list [] rs) := by
  have hentries : List.Forall₂ (fun i r => ∃ got,
      s.entryToR (s.getList (some id) i) = .ok got ∧ s.asList depth got = .ok r)
      (List.range rs.length) rs := by
    rw [List.forall₂_iff_get] at h ⊢
    refine ⟨h.1, fun i hi hi' => ?_⟩
    obtain ⟨v, hv, got, hgot, hr⟩ := h.2 i hi hi'
    refine ⟨got, ?_, hr⟩
    have hlt : i < rs.length := hi'
    have hget : s.getList (some id) ((List.range rs.length).get ⟨i, hi⟩) = .ok (some v) := by
      rw [List.get_eq_getElem, List.getElem_range] at hv ⊢
      unfold getList adjust
      rw [hl, ht]
      have hne : rs.length ≠ 0 := by omega
      have hle : ¬ rs.length - 1 < i := by omega
      simp [hne, hle, hv]
    rw [hget]
    exact hgot
  obtain ⟨gots, hgots, hrs⟩ := forall₂_through hentries
  have hvalues : s.amValues (some id) = .ok gots := by
    unfold amValues
    rw [if_pos ht, hl]
    exact mapM_of_forall₂ hgots
  refine ⟨.object (s.objectType (some id)) id, rfl, ?_⟩
  unfold asList
  rw [ht]
  show s.asListList (s.asList depth) (some id) = _
  unfold asListList
  rw [hvalues]
  show (gots.mapM (s.asList depth) >>= _) = _
  rw [mapM_of_forall₂ hrs]
  rfl

/-- A map reads as its entries in the order of its keys. -/
theorem asListMap_eq {s : OpSet A} {depth : ℕ} {obj : ObjId A} {ys : List (RString × RValue)}
    (ht : s.objectType obj = some .map) (hkeys : s.keys obj = ys.map keyOf)
    (hl : s.length obj = ys.length) (hvalid : ∀ p ∈ ys, p.1.valid = true)
    (h : ∀ p ∈ ys, ∃ v, s.mapGet obj (keyOf p) = some v ∧ s.Reads depth v p.2) :
    s.asListMap (s.asList depth) obj = .ok (.namedList [] ys) := by
  have hnames : s.amKeys obj = .ok (ys.map Prod.fst) := by
    unfold amKeys
    apply mapM_of_forall₂
    rw [hkeys, List.forall₂_map_left_iff, List.forall₂_map_right_iff, List.forall₂_same]
    rintro ⟨name, r⟩ hp
    cases name with
    | na | invalid => cases hvalid _ hp
    | utf8 text hnul => exact mkChar_utf8 text hnul
  have hentries : List.Forall₂ (fun key r => ∃ got,
      s.entryToR (s.getMap obj key) = .ok got ∧ s.asList depth got = .ok r)
      (ys.map keyOf) (ys.map Prod.snd) := by
    rw [List.forall₂_map_left_iff, List.forall₂_map_right_iff, List.forall₂_same]
    intro p hp
    obtain ⟨v, hv, got, hgot, hr⟩ := h p hp
    refine ⟨got, ?_, hr⟩
    unfold getMap
    rw [ht]
    dsimp only
    rw [hv]
    exact hgot
  obtain ⟨gots, hgots, hrs⟩ := forall₂_through hentries
  have hvalues : s.amValues obj = .ok gots := by
    have hlen : gots.length = ys.length := by
      rw [← hgots.length_eq, List.length_map]
    unfold amValues
    rw [if_neg (by rw [ht]; decide), hl, hkeys, List.take_of_length_le (by rw [List.length_map]),
      mapM_of_forall₂ hgots]
    show Except.ok (gots ++ List.replicate (ys.length - gots.length) _) = _
    rw [hlen, Nat.sub_self, List.replicate_zero, List.append_nil]
  have hset : setNames (ys.map Prod.snd) (ys.map Prod.fst) = .ok (.namedList [] ys) := by
    unfold setNames
    rw [if_neg (by simp), List.length_map, List.length_map, Nat.sub_self, List.replicate_zero,
      List.append_nil, List.zip_map']
    simp
  unfold asListMap
  rw [hnames, hvalues]
  show (gots.mapM (s.asList depth) >>= _) = _
  rw [mapM_of_forall₂ hrs]
  exact hset

end OpSet

/-! ## A whole tree -/

theorem readBackNamed_eq (xs : List (RString × RValue)) :
    readBackNamed xs = xs.map fun p => (p.1, p.2.readBack) := by
  induction xs with
  | nil => rfl
  | cons p xs ih => rw [readBackNamed, ih, List.map_cons]

theorem length_readBackList (xs : List RValue) : (readBackList xs).length = xs.length := by
  induction xs with
  | nil => rfl
  | cons x xs ih => rw [readBackList, List.length_cons, ih, List.length_cons]

theorem roundTripsNamed_iff (xs : List (RString × RValue)) : roundTripsNamed xs = true ↔
    ∀ p ∈ xs, p.1.valid = true ∧ p.1.char ≠ some "" ∧ p.2.roundTrips = true := by
  induction xs with
  | nil => simp [roundTripsNamed]
  | cons p xs ih =>
    obtain ⟨name, x⟩ := p
    rw [roundTripsNamed, List.forall_mem_cons, ← ih]
    simp [and_assoc]

/-- The keys of a map are the names in order. -/
theorem keys_sorted {s : OpSet A} {obj : ObjId A} {xs : List (RString × RValue)}
    (hnd : (xs.map keyOf).Nodup) (hshape : s.MapShape obj (xs.map keyOf)) :
    s.keys obj = ((readBackNamed xs).insertionSort nameLE).map keyOf := by
  have hsame : (readBackNamed xs).map keyOf = xs.map keyOf := by
    rw [readBackNamed_eq, List.map_map]
    rfl
  have hperm : (((readBackNamed xs).insertionSort nameLE).map keyOf).Perm (xs.map keyOf) := by
    rw [← hsame]
    exact (List.perm_insertionSort nameLE _).map keyOf
  have hsorted : (((readBackNamed xs).insertionSort nameLE).map keyOf).Pairwise (· < ·) := by
    have hle : (((readBackNamed xs).insertionSort nameLE).map keyOf).Pairwise (· ≤ ·) := by
      rw [List.pairwise_map]
      have htotal : Std.Total nameLE := ⟨fun p q => le_total (keyOf p) (keyOf q)⟩
      have htrans : IsTrans _ nameLE := ⟨fun p q r hpq hqr => le_trans hpq hqr⟩
      exact List.pairwise_insertionSort nameLE _
    have hne : (((readBackNamed xs).insertionSort nameLE).map keyOf).Nodup :=
      hperm.nodup_iff.mpr hnd
    exact (hle.and hne).imp fun h => lt_of_le_of_ne h.1 h.2
  exact (hshape.perm.trans hperm.symm).eq_of_pairwise'
    (hshape.sorted) hsorted

/-- A map with the elements of a named list reads as the list, sorted by name. -/
theorem asListMap_content {s : OpSet A} {depth : ℕ} {obj : ObjId A}
    {xs : List (RString × RValue)} (hnd : (xs.map keyOf).Nodup)
    (hvalid : ∀ p ∈ xs, p.1.valid = true) (hshape : s.MapShape obj (xs.map keyOf))
    (h : ∀ p ∈ xs, ∃ v, s.mapGet obj (keyOf p) = some v ∧ s.Reads depth v p.2.readBack) :
    s.asListMap (s.asList depth) obj =
      .ok (.namedList [] ((readBackNamed xs).insertionSort nameLE)) := by
  have hperm := List.perm_insertionSort nameLE (readBackNamed xs)
  have hmem : ∀ q ∈ (readBackNamed xs).insertionSort nameLE,
      ∃ p ∈ xs, q = (p.1, p.2.readBack) := by
    intro q hq
    rw [hperm.mem_iff, readBackNamed_eq] at hq
    obtain ⟨p, hp, rfl⟩ := List.mem_map.mp hq
    exact ⟨p, hp, rfl⟩
  refine OpSet.asListMap_eq hshape.objectType (keys_sorted hnd hshape) ?_ ?_ ?_
  · rw [hshape.length, hperm.length_eq, readBackNamed_eq, List.length_map, List.length_map]
  · intro q hq
    obtain ⟨p, hp, rfl⟩ := hmem q hq
    exact hvalid p hp
  · intro q hq
    obtain ⟨p, hp, rfl⟩ := hmem q hq
    exact h p hp

mutual

/-- What a document shows of a value reads as the value again. -/
theorem reads_content (x : RValue) :
    ∀ {s : OpSet A} {own : OpId A → Prop} {depth : ℕ} {v : Value A}, x.roundTrips = true →
      x.depth ≤ depth → s.Shows own v x.content → s.Reads depth v x.readBack := by
  intro s own depth v hr hd hs
  match x with
  | .list cls xs =>
    unfold RValue.roundTrips at hr
    rw [Bool.and_eq_true, List.isEmpty_iff] at hr
    obtain ⟨rfl, hxs⟩ := hr
    obtain ⟨id, rfl, -, ht, hl, hshows⟩ := hs
    unfold RValue.depth at hd
    obtain ⟨depth, rfl⟩ : ∃ d, depth = d + 1 := ⟨depth - 1, by omega⟩
    have hlen : (readBackList xs).length = (contentList xs).length := by
      rw [length_readBackList, contentList_eq_map, List.length_map]
    apply OpSet.reads_list ht (hl.trans hlen.symm)
    rw [List.range_eq_range', length_readBackList]
    exact reads_contentList xs hxs (by omega) hshows
  | .namedList cls xs =>
    unfold RValue.roundTrips at hr
    simp only [Bool.and_eq_true, List.isEmpty_iff, decide_eq_true_eq] at hr
    obtain ⟨⟨rfl, hnd⟩, hxs⟩ := hr
    unfold RValue.depth at hd
    obtain ⟨depth, rfl⟩ : ∃ d, depth = d + 1 := ⟨depth - 1, by omega⟩
    have hcontent : (RValue.namedList [] xs).content =
        .map (xs.map fun p => (keyOf p, p.2.content)) :=
      congrArg Tree.map (contentMap_distinct xs [] hnd)
    rw [hcontent] at hs
    obtain ⟨id, rfl, -, hshape, hshows⟩ := hs
    rw [List.map_map] at hshape
    refine ⟨.object (s.objectType (some id)) id, rfl, ?_⟩
    unfold OpSet.asList
    rw [hshape.objectType]
    show s.asListMap (s.asList depth) (some id) = _
    rw [roundTripsNamed_iff] at hxs
    refine asListMap_content hnd (fun p hp => (hxs p hp).1) hshape fun p hp => ?_
    obtain ⟨v, hv, hp'⟩ := hshows.of_mem (List.mem_map.mpr ⟨p, hp, rfl⟩)
    exact ⟨v, hv, reads_contentNamed xs (by omega) p hp (hxs p hp).2.2 hp'⟩
  | .null | .logical .. | .integer .. | .double .. | .character .. | .raw .. | .other .. =>
    exact OpSet.reads_atom rfl hr hd hs

theorem reads_contentList (xs : List RValue) :
    ∀ {s : OpSet A} {own : OpId A → Prop} {depth i : ℕ} {id : OpId A}, roundTripsList xs = true →
      depthList xs ≤ depth → s.ShowsList own id i (contentList xs) →
      List.Forall₂ (fun i r => ∃ v, s.listGet (some id) i = some v ∧ s.Reads depth v r)
        (List.range' i xs.length) (readBackList xs) := by
  intro s own depth i id hr hd hs
  match xs with
  | [] => exact .nil
  | x :: xs =>
    unfold roundTripsList at hr
    rw [Bool.and_eq_true] at hr
    unfold depthList at hd
    obtain ⟨⟨v, hv, hx⟩, hxs⟩ := hs
    exact .cons ⟨v, hv, reads_content x hr.1 (by omega) hx⟩
      (reads_contentList xs hr.2 (by omega) hxs)

theorem reads_contentNamed (xs : List (RString × RValue)) :
    ∀ {s : OpSet A} {own : OpId A → Prop} {depth : ℕ}, depthNamed xs ≤ depth →
      ∀ p ∈ xs, p.2.roundTrips = true → ∀ {v : Value A}, s.Shows own v p.2.content →
        s.Reads depth v p.2.readBack := by
  intro s own depth hd p hp hr v hs
  match xs with
  | [] => cases hp
  | (name, x) :: xs =>
    unfold depthNamed at hd
    rcases List.mem_cons.mp hp with rfl | hp
    · exact reads_content x hr (by omega) hs
    · exact reads_contentNamed xs (by omega) p hp hr hs

end

/-! ## The document -/

mutual

/-- Such a value can be stored. -/
theorem storable_of_roundTrips (x : RValue) (h : x.roundTrips = true) : x.storable = true := by
  match x with
  | .list cls xs =>
    unfold RValue.roundTrips at h
    rw [Bool.and_eq_true, List.isEmpty_iff] at h
    obtain ⟨rfl, hxs⟩ := h
    have hstored := storableList_of_roundTrips xs hxs
    show ((xs.isEmpty || true) && storableList xs) = true
    rw [hstored, Bool.or_true, Bool.and_self]
  | .namedList cls xs =>
    unfold RValue.roundTrips at h
    simp only [Bool.and_eq_true, List.isEmpty_iff] at h
    obtain ⟨⟨rfl, -⟩, hxs⟩ := h
    have hstored := storableNamed_of_roundTrips xs hxs
    show ((xs.isEmpty || true) && storableNamed xs) = true
    rw [hstored, Bool.or_true, Bool.and_self]
  | .null => rfl
  | .logical cls xs | .double cls xs =>
    unfold RValue.roundTrips at h
    simp only [Bool.and_eq_true, List.isEmpty_iff, beq_iff_eq] at h
    obtain ⟨y, rfl⟩ := List.length_eq_one_iff.mp (by first | exact h.1.2 | exact h.2)
    cases (show cls = [] by first | exact h.1.1 | exact h.1)
    rfl
  | .integer cls xs =>
    unfold RValue.roundTrips at h
    simp only [Bool.and_eq_true, Bool.or_eq_true, List.isEmpty_iff, beq_iff_eq] at h
    obtain ⟨⟨hcls, hlen⟩, -⟩ := h
    obtain ⟨n, rfl⟩ := List.length_eq_one_iff.mp hlen
    rcases hcls with rfl | rfl <;> rfl
  | .character cls xs =>
    unfold RValue.roundTrips at h
    simp only [Bool.and_eq_true, Bool.or_eq_true, List.isEmpty_iff, beq_iff_eq] at h
    obtain ⟨⟨hcls, hlen⟩, hvalid⟩ := h
    obtain ⟨text, rfl⟩ := List.length_eq_one_iff.mp hlen
    cases text with
    | na | invalid => cases hvalid
    | utf8 text hnul => rcases hcls with rfl | rfl <;> rfl
  | .raw cls bytes =>
    cases (show cls = [] from List.isEmpty_iff.mp h)
    rfl
  | .other cls n => cases h

theorem storableList_of_roundTrips (xs : List RValue) (h : roundTripsList xs = true) :
    storableList xs = true := by
  match xs with
  | [] => rfl
  | x :: xs =>
    unfold roundTripsList at h
    rw [Bool.and_eq_true] at h
    rw [storableList, storable_of_roundTrips x h.1, storableList_of_roundTrips xs h.2]
    rfl

theorem storableNamed_of_roundTrips (xs : List (RString × RValue))
    (h : roundTripsNamed xs = true) : storableNamed xs = true := by
  match xs with
  | [] => rfl
  | (name, x) :: xs =>
    unfold roundTripsNamed at h
    simp only [Bool.and_eq_true] at h
    obtain ⟨⟨⟨hname, -⟩, hx⟩, hxs⟩ := h
    have hchar : name.char.isSome = true := by
      cases name <;> first | rfl | cases hname
    rw [storableNamed, hchar, storable_of_roundTrips x hx, storableNamed_of_roundTrips xs hxs]
    rfl

end

/-- With distinct names every element is found under its own. -/
theorem subset2_distinct {cls : List String} {xs : List (RString × RValue)}
    (hnd : (xs.map keyOf).Nodup) (h : ∀ p ∈ xs, p.1.valid = true ∧ p.1.char ≠ some "") :
    ((RValue.namedList cls xs).names.map fun name =>
      (name, (RValue.namedList cls xs).subset2 name)) = xs := by
  have hfind : ∀ p ∈ xs, (RValue.namedList cls xs).subset2 p.1 = p.2 := by
    intro p hp
    obtain ⟨hvalid, hne⟩ := h p hp
    have hna : ¬ (p.1 = .na ∨ p.1.char = some "") := by
      rintro (hna | hempty)
      · rw [hna] at hvalid
        cases hvalid
      · exact hne hempty
    have hfound : xs.find? (fun q => q.1 = p.1) = some p := by
      cases hf : xs.find? fun q => q.1 = p.1 with
      | none =>
        rw [List.find?_eq_none] at hf
        simpa using hf p hp
      | some q =>
        have hq := List.mem_of_find?_eq_some hf
        have heq : q.1 = p.1 := by simpa using List.find?_some hf
        have hkey : keyOf q = keyOf p := by
          unfold keyOf
          rw [heq]
        rw [List.inj_on_of_nodup_map hnd hq hp hkey]
    dsimp only [RValue.subset2]
    rw [if_neg hna, hfound]
  unfold RValue.names
  rw [List.map_map]
  conv_rhs => rw [← List.map_id xs]
  apply List.map_congr_left
  intro p hp
  exact Prod.ext rfl (hfind p hp)

namespace Tx

/-- **What `as_automerge` has stored `from_automerge` reads back**, with the entries of
named lists in the order of their names and texts as strings. -/
theorem fromAutomerge_asAutomerge (actor : A) {xs : List (RString × RValue)}
    (hr : (RValue.namedList [] xs).roundTrips = true) {depth : ℕ}
    (hd : (RValue.namedList [] xs).depth ≤ depth) :
    ∃ tx, (Tx.new actor).asAutomerge (.namedList [] xs) = (tx, .ok ()) ∧
      tx.ops.fromAutomerge depth = .ok (RValue.namedList [] xs).readBack := by
  have hstored := storable_of_roundTrips _ hr
  unfold RValue.roundTrips at hr
  simp only [Bool.and_eq_true, List.isEmpty_iff, decide_eq_true_eq] at hr
  obtain ⟨⟨-, hnd⟩, hxs⟩ := hr
  have hnamed := storableNamed_of_roundTrips xs hxs
  rw [roundTripsNamed_iff] at hxs
  unfold RValue.depth at hd
  -- the elements are put one after another
  have hloop := asAutomergeLoop_eq (.namedList [] xs) (RValue.namedList [] xs).names (Tx.new actor)
  rw [subset2_distinct hnd fun p hp => ⟨(hxs p hp).1, (hxs p hp).2.1⟩] at hloop
  have hsucceeds : Succeeds ((Tx.new actor).populateMap none xs) :=
    populateMap_succeeds xs (fresh_new actor) rfl hnamed
  obtain ⟨tx, u, hpop⟩ := hsucceeds
  refine ⟨tx, hloop.trans hpop, ?_⟩
  -- and the root has them as entries
  have hfill := fills_populateMap xs (fresh_new actor) (by simp) le_rfl (fillsMap_new actor) hpop
  obtain ⟨hshape, hshows⟩ := hfill.shows_entries
  rw [contentMap_distinct xs [] hnd, List.nil_append] at hshape hshows
  rw [List.map_map] at hshape
  refine asListMap_content hnd (fun p hp => (hxs p hp).1) hshape fun p hp => ?_
  obtain ⟨v, hv, hp'⟩ := hshows.of_mem (List.mem_map.mpr ⟨p, hp, rfl⟩)
  exact ⟨v, hv, reads_contentNamed xs (by omega) p hp (hxs p hp).2.2 hp'⟩

end Tx

/-- `am_text(initial)`. -/
def amText (initial : RString) : RValue := .character ["am_text_type", "character"] [initial]

/-- `list(b = list(1L, am_text("x")), a = TRUE)`. -/
def treeBA : RValue :=
  .namedList [] [(.lit "b", .list [] [.integer [] [1], amText (.lit "x")]),
    (.lit "a", .logical [] [some true])]

theorem fromAutomerge_asAutomerge_treeBA :
    ∃ tx, (Tx.new 0).asAutomerge treeBA = (tx, .ok ()) ∧
      tx.ops.fromAutomerge 3 = .ok (.namedList [] [(.lit "a", .logical [] [some true]),
        (.lit "b", .list [] [.integer [] [1], .character [] [.lit "x"]])]) :=
  Tx.fromAutomerge_asAutomerge 0 (by decide) (by decide)

/-- The text `am_text(NA)` comes back as the string `"NA"`, and an element whose name is
missing as NULL under `"NA"`. -/
theorem fromAutomerge_na :
    (((Tx.new 0).asAutomerge (.namedList [] [(.lit "t", amText .na)])).2 = .ok () ∧
      ((Tx.new 0).asAutomerge (.namedList [] [(.lit "t", amText .na)])).1.ops.fromAutomerge 3 =
        .ok (.namedList [] [(.lit "t", .character [] [.lit "NA"])]) ∧
      RValue.namedList [] [(.lit "t", .character [] [.lit "NA"])] ≠
        (RValue.namedList [] [(.lit "t", amText .na)]).readBack) ∧
    (((Tx.new 0).asAutomerge (.namedList [] [(.na, .integer [] [1])])).2 = .ok () ∧
      ((Tx.new 0).asAutomerge (.namedList [] [(.na, .integer [] [1])])).1.ops.fromAutomerge 3 =
        .ok (.namedList [] [(.lit "NA", .null)]) ∧
      RValue.namedList [] [(.lit "NA", .null)] ≠
        (RValue.namedList [] [(.na, .integer [] [1])]).readBack) := by
  refine ⟨⟨by decide, rfl, fun h => ?_⟩, by decide, rfl, fun h => ?_⟩
  · cases h
  · cases h

end AutomergeR
