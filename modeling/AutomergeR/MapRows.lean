import AutomergeR.MapOps
import Mathlib.Data.List.Sort
import Mathlib.Data.String.Basic

/-! # The rows of a map

The rows of a map are sorted by key, and the `visible` index says which of them no
successor hides. So the keys are read in order, each once, and they are the keys at which
there is a value.
-/

namespace AutomergeR

variable {A : Type} [LinearOrder A]

/-! ## The index -/

namespace Row

/-- The `visible` index is up to date. -/
def Indexed (r : Row A) : Prop := r.visible = (!r.isInc && r.unhidden)

omit [LinearOrder A] in
theorem indexed_row (id : OpId A) (op : Op A) : (Tx.row id op).Indexed := by
  unfold Indexed Tx.row Row.isInc Row.unhidden
  simp

omit [LinearOrder A] in
theorem all_takeWhile_dropWhile {B : Type} (l : List B) (p q : B → Bool) :
    ((l.takeWhile q).all p && (l.dropWhile q).all p) = l.all p := by
  rw [← List.all_append, List.takeWhile_append_dropWhile]

theorem addSucc_unhidden (r : Row A) (s : OpId A × Option ℤ) :
    (r.addSucc s).unhidden = (r.unhidden && r.action.isCounter && s.2.isSome) := by
  unfold unhidden
  rw [addSucc_action]
  unfold addSucc
  by_cases hc : r.action.isCounter = true
  · cases hs : s.2 with
    | none => simp [hc]
    | some n =>
      simp only [hc, if_true, Option.isSome_some, List.all_append, List.all_cons, Bool.true_and,
        Bool.and_true]
      exact all_takeWhile_dropWhile _ _ _
  · simp [hc]

theorem Indexed.addSucc {r : Row A} (h : r.Indexed) (s : OpId A × Option ℤ) :
    (r.addSucc s).Indexed := by
  unfold Indexed at h ⊢
  rw [addSucc_visible, addSucc_unhidden, h]
  unfold Row.isInc
  rw [addSucc_action, Bool.and_assoc, Bool.and_assoc, Bool.and_assoc]

end Row

/-! ## Sorted rows -/

/-- The key of a map's row. -/
def Row.mapKey (r : Row A) : String :=
  match r.key with
  | .map prop => prop
  | .seq _ => ""

structure MapRows (rows : List (Row A)) : Prop where
  key : ∀ r ∈ rows, r.key = .map r.mapKey
  insert : ∀ r ∈ rows, r.insert = false
  indexed : ∀ r ∈ rows, r.Indexed
  sorted : rows.Pairwise fun r r' => r.mapKey ≤ r'.mapKey

namespace MapRows

variable {rows : List (Row A)}

omit [LinearOrder A] in
theorem nil : MapRows ([] : List (Row A)) :=
  ⟨by simp, by simp, by simp, List.Pairwise.nil⟩

omit [LinearOrder A] in
theorem tail {r : Row A} (h : MapRows (r :: rows)) : MapRows rows where
  key r' hr := h.key r' (List.mem_cons_of_mem _ hr)
  insert r' hr := h.insert r' (List.mem_cons_of_mem _ hr)
  indexed r' hr := h.indexed r' (List.mem_cons_of_mem _ hr)
  sorted := (List.pairwise_cons.mp h.sorted).2

omit [LinearOrder A] in
theorem filter (h : MapRows rows) (p : Row A → Bool) :
    MapRows (rows.filter p) where
  key r hr := h.key r (List.mem_of_mem_filter hr)
  insert r hr := h.insert r (List.mem_of_mem_filter hr)
  indexed r hr := h.indexed r (List.mem_of_mem_filter hr)
  sorted := h.sorted.filter p

omit [LinearOrder A] in
/-- The rows up to `keyEnd` have keys up to `prop`, and those behind it greater ones. -/
theorem keyEnd_split (h : MapRows rows) (prop : String) :
    (∀ r ∈ rows.take (Tx.keyEnd rows prop), r.mapKey ≤ prop) ∧
      ∀ r ∈ rows.drop (Tx.keyEnd rows prop), prop ≤ r.mapKey := by
  induction rows with
  | nil => simp
  | cons r rows ih =>
    obtain ⟨htake, hdrop⟩ := ih h.tail
    have hkey := h.key r List.mem_cons_self
    unfold Tx.keyEnd at htake hdrop ⊢
    by_cases hle : r.mapKey ≤ prop
    · rw [List.takeWhile_cons_of_pos (by rw [hkey]; simpa using hle), List.length_cons,
        List.take_succ_cons, List.drop_succ_cons]
      refine ⟨fun r' hr' => ?_, hdrop⟩
      rcases List.mem_cons.mp hr' with rfl | hr'
      · exact hle
      · exact htake r' hr'
    · rw [List.takeWhile_cons_of_neg (by rw [hkey]; simpa using hle)]
      refine ⟨fun r' hr' => absurd hr' List.not_mem_nil, fun r' hr' => ?_⟩
      have hlt := le_of_not_ge hle
      rcases List.mem_cons.mp hr' with rfl | hr'
      · exact hlt
      · exact hlt.trans ((List.pairwise_cons.mp h.sorted).1 r' hr')

omit [LinearOrder A] in
/-- A new row goes in behind the others of its key. -/
theorem insert_keyEnd (h : MapRows rows) (new : Row A) (hkey : new.key = .map new.mapKey)
    (hinsert : new.insert = false) (hindexed : new.Indexed) :
    MapRows (rows.take (Tx.keyEnd rows new.mapKey) ++ [new] ++
      rows.drop (Tx.keyEnd rows new.mapKey)) := by
  obtain ⟨htake, hdrop⟩ := h.keyEnd_split new.mapKey
  have hmem : ∀ r ∈ rows.take (Tx.keyEnd rows new.mapKey) ++ [new] ++
      rows.drop (Tx.keyEnd rows new.mapKey), r ∈ rows ∨ r = new := by
    intro r hr
    rw [List.mem_append, List.mem_append, List.mem_singleton] at hr
    rcases hr with (hr | rfl) | hr
    · exact Or.inl (List.mem_of_mem_take hr)
    · exact Or.inr rfl
    · exact Or.inl (List.mem_of_mem_drop hr)
  refine ⟨fun r hr => ?_, fun r hr => ?_, fun r hr => ?_, ?_⟩
  · rcases hmem r hr with hr | rfl
    · exact h.key r hr
    · exact hkey
  · rcases hmem r hr with hr | rfl
    · exact h.insert r hr
    · exact hinsert
  · rcases hmem r hr with hr | rfl
    · exact h.indexed r hr
    · exact hindexed
  · have hsorted := h.sorted
    rw [← List.take_append_drop (Tx.keyEnd rows new.mapKey) rows, List.pairwise_append] at hsorted
    rw [List.append_assoc, List.pairwise_append, List.singleton_append, List.pairwise_cons]
    refine ⟨hsorted.1, ⟨hdrop, hsorted.2.1⟩, fun r hr r' hr' => ?_⟩
    rcases List.mem_cons.mp hr' with rfl | hr'
    · exact htake r hr
    · exact hsorted.2.2 r hr r' hr'

/-- Successors change neither keys nor order. -/
theorem addSucc (h : MapRows rows) (ids : List (OpId A)) (s : OpId A × Option ℤ) :
    MapRows (rows.map fun r => if r.id ∈ ids then r.addSucc s else r) := by
  have hkey : ∀ r : Row A, (if r.id ∈ ids then r.addSucc s else r).key = r.key := by
    intro r
    split
    · exact r.addSucc_key s
    · rfl
  have hmapKey : ∀ r : Row A, (if r.id ∈ ids then r.addSucc s else r).mapKey = r.mapKey := by
    intro r
    unfold Row.mapKey
    rw [hkey]
  refine ⟨fun r hr => ?_, fun r hr => ?_, fun r hr => ?_, ?_⟩
  · obtain ⟨r₀, hr₀, rfl⟩ := List.mem_map.mp hr
    rw [hkey, hmapKey]
    exact h.key r₀ hr₀
  · obtain ⟨r₀, hr₀, rfl⟩ := List.mem_map.mp hr
    split
    · rw [Row.addSucc_insert]
      exact h.insert r₀ hr₀
    · exact h.insert r₀ hr₀
  · obtain ⟨r₀, hr₀, rfl⟩ := List.mem_map.mp hr
    split
    · exact (h.indexed r₀ hr₀).addSucc s
    · exact h.indexed r₀ hr₀
  · rw [List.pairwise_map]
    exact h.sorted.imp fun hle => by rwa [hmapKey, hmapKey]

end MapRows

/-! ## Keys in order -/

namespace OpSet

/-- The keys of the last rows of each key. -/
def topKeys (rows : List (Row A)) : List String :=
  (topOps rows).filterMap fun r =>
    match r.key with
    | .map prop => some prop
    | .seq _ => none

/-- What `keys` is to list: the keys of visible rows, in order. -/
structure KeysOf (rows : List (Row A)) (keys : List String) : Prop where
  sorted : keys.Pairwise (· < ·)
  mem : ∀ prop, prop ∈ keys ↔ ∃ r ∈ rows, r.mapKey = prop

theorem topKeys_cons {r n : Row A} {rows : List (Row A)} (h : MapRows (r :: n :: rows)) :
    topKeys (r :: n :: rows) =
      if r.mapKey = n.mapKey then topKeys (n :: rows) else r.mapKey :: topKeys (n :: rows) := by
  have hr := h.key r List.mem_cons_self
  have hn := h.key n (List.mem_cons_of_mem _ List.mem_cons_self)
  have hri := h.insert r List.mem_cons_self
  have hni := h.insert n (List.mem_cons_of_mem _ List.mem_cons_self)
  have hsame : r.elemidOrKey = n.elemidOrKey ↔ r.mapKey = n.mapKey := by
    unfold Row.elemidOrKey
    rw [hri, hni, hr, hn]
    simp
  unfold topKeys
  rw [topOps]
  by_cases heq : r.mapKey = n.mapKey
  · rw [if_pos (hsame.mpr heq), if_pos heq]
  · rw [if_neg (fun he => heq (hsame.mp he)), if_neg heq, List.filterMap_cons, hr]

theorem keysOf_topKeys : ∀ {rows : List (Row A)}, MapRows rows → KeysOf rows (topKeys rows)
  | [], _ => ⟨List.Pairwise.nil, by simp [topKeys, topOps]⟩
  | [r], h => by
    have hr := h.key r List.mem_cons_self
    have hkeys : topKeys [r] = [r.mapKey] := by
      unfold topKeys
      rw [topOps, List.filterMap_cons, hr]
      rfl
    rw [hkeys]
    exact ⟨List.pairwise_singleton _ _, by simp [eq_comm]⟩
  | r :: n :: rows, h => by
    have ih := keysOf_topKeys h.tail
    have hle : ∀ prop ∈ topKeys (n :: rows), r.mapKey ≤ prop := by
      intro prop hprop
      obtain ⟨r', hr', rfl⟩ := (ih.mem prop).mp hprop
      exact (List.pairwise_cons.mp h.sorted).1 r' hr'
    rw [topKeys_cons h]
    split
    · rename_i heq
      refine ⟨ih.sorted, fun prop => ?_⟩
      rw [ih.mem]
      constructor
      · rintro ⟨r', hr', rfl⟩
        exact ⟨r', List.mem_cons_of_mem _ hr', rfl⟩
      · rintro ⟨r', hr', rfl⟩
        rcases List.mem_cons.mp hr' with rfl | hr'
        · exact ⟨n, List.mem_cons_self, heq.symm⟩
        · exact ⟨r', hr', rfl⟩
    · rename_i hne
      refine ⟨List.pairwise_cons.mpr ⟨fun prop hprop => ?_, ih.sorted⟩, fun prop => ?_⟩
      · refine lt_of_le_of_ne (hle prop hprop) ?_
        rintro rfl
        -- then the row after it has the same key
        obtain ⟨r', hr', heq⟩ := (ih.mem _).mp hprop
        apply hne
        apply le_antisymm ((List.pairwise_cons.mp h.sorted).1 n List.mem_cons_self)
        rcases List.mem_cons.mp hr' with rfl | hr'
        · exact le_of_eq heq
        · rw [← heq]
          exact (List.pairwise_cons.mp h.tail.sorted).1 r' hr'
      · rw [List.mem_cons, ih.mem]
        constructor
        · rintro (rfl | ⟨r', hr', rfl⟩)
          · exact ⟨r, List.mem_cons_self, rfl⟩
          · exact ⟨r', List.mem_cons_of_mem _ hr', rfl⟩
        · rintro ⟨r', hr', rfl⟩
          rcases List.mem_cons.mp hr' with rfl | hr'
          · exact Or.inl rfl
          · exact Or.inr ⟨r', hr', rfl⟩

/-- The keys are counted as they are listed. -/
theorem countKeys_filter (rows : List (Row A)) (last : Option (Key A)) :
    countKeys rows last = countKeys (rows.filter (·.visible)) last := by
  induction rows generalizing last with
  | nil => rfl
  | cons r rows ih =>
    rw [countKeys]
    by_cases hv : r.visible = true
    · rw [if_pos hv, List.filter_cons_of_pos hv, countKeys, if_pos hv, ih]
    · rw [if_neg hv, List.filter_cons_of_neg hv, ih]

theorem length_topKeys : ∀ {r : Row A} {rows : List (Row A)}, MapRows (r :: rows) →
    (∀ r' ∈ r :: rows, r'.visible = true) →
    (topKeys (r :: rows)).length = 1 + countKeys rows (some r.key)
  | r, [], h, _ => by
    unfold topKeys
    rw [topOps, List.filterMap_cons, h.key r List.mem_cons_self]
    rfl
  | r, n :: rows, h, hv => by
    have ih := length_topKeys h.tail fun r' hr' => hv r' (List.mem_cons_of_mem _ hr')
    have hr := h.key r List.mem_cons_self
    have hn := h.key n (List.mem_cons_of_mem _ List.mem_cons_self)
    have hsame : some r.key = some n.key ↔ r.mapKey = n.mapKey := by
      rw [hr, hn]
      simp
    rw [topKeys_cons h, countKeys, if_pos (hv n (List.mem_cons_of_mem _ List.mem_cons_self))]
    by_cases heq : r.mapKey = n.mapKey
    · rw [if_pos heq, if_pos (hsame.mpr heq), ih, Nat.zero_add]
    · rw [if_neg heq, if_neg (fun he => heq (hsame.mp he)), List.length_cons, ih]
      omega

/-- `keys` lists the keys with a visible row in order, and `length` counts them. -/
theorem keys_mapRows {s : OpSet A} {obj : ObjId A} (ht : s.objectType obj = some .map)
    (h : MapRows (s.rows obj)) :
    (s.keys obj).Pairwise (· < ·) ∧
      (∀ prop, prop ∈ s.keys obj ↔ (s.mapGet obj prop).isSome = true) ∧
      s.length obj = (s.keys obj).length := by
  have hvis : (s.rows obj).filter (fun r => !r.isInc && r.unhidden) =
      (s.rows obj).filter (·.visible) :=
    List.filter_congr fun r hr => (h.indexed r hr).symm
  have hkeys : s.keys obj = topKeys ((s.rows obj).filter (·.visible)) := by
    rw [← hvis]
    rfl
  have hof := keysOf_topKeys (h.filter (·.visible))
  rw [hkeys]
  refine ⟨hof.sorted, fun prop => ?_, ?_⟩
  · rw [hof.mem]
    unfold mapGet
    rw [ht]
    dsimp only
    rw [Option.isSome_map, List.getLast?_isSome]
    constructor
    · rintro ⟨r, hr, rfl⟩
      obtain ⟨hm, hv⟩ := List.mem_filter.mp hr
      exact List.ne_nil_of_mem (List.mem_filter.mpr ⟨hm, by simpa using ⟨hv, h.key r hm⟩⟩)
    · intro hne
      obtain ⟨r, hr⟩ := List.exists_mem_of_ne_nil _ hne
      obtain ⟨hm, hv⟩ := List.mem_filter.mp hr
      simp only [decide_eq_true_eq] at hv
      refine ⟨r, List.mem_filter.mpr ⟨hm, hv.1⟩, ?_⟩
      unfold Row.mapKey
      rw [hv.2]
  · have hlength : s.length obj = countKeys ((s.rows obj).filter (·.visible)) none := by
      unfold length
      rw [ht]
      exact countKeys_filter _ _
    rw [hlength]
    cases hrows : (s.rows obj).filter (·.visible) with
    | nil => rfl
    | cons r rows =>
      have hall : ∀ r' ∈ r :: rows, r'.visible = true := by
        intro r' hr'
        rw [← hrows] at hr'
        exact (List.mem_filter.mp hr').2
      rw [length_topKeys (hrows ▸ h.filter (·.visible)) hall, countKeys,
        if_pos (hall r List.mem_cons_self), if_neg (by simp)]

end OpSet

namespace Tx

/-- An operation on a key keeps the rows of the map in order. -/
theorem mapRows_localMapOp {tx : Tx A} {obj : ObjId A} (h : MapRows (tx.ops.rows obj))
    (prop : String) (action : OpType) :
    MapRows ((tx.localMapOp obj prop action).1.ops.rows obj) := by
  have hlocal : ∀ {found : OpSet.OpsFound A}, found.endPos = keyEnd (tx.ops.rows obj) prop →
      MapRows ((tx.localOp obj (.map prop) found action).1.ops.rows obj) := by
    intro found hend
    unfold localOp
    split
    · exact h
    · rename_i ops action' _
      split
      · exact h
      · let op : Op A := ⟨obj, .map prop, false, action', ops.map Row.id⟩
        have hrows : (tx.splice found.endPos op).ops.rows obj =
            (tx.ops.rows obj).take found.endPos ++
              (if action' = .delete then [] else [row tx.nextId op]) ++
                (tx.ops.rows obj).drop found.endPos := rows_splice tx found.endPos op
        have hsplice : MapRows ((tx.splice found.endPos op).ops.rows obj) := by
          rw [hrows, hend]
          split
          · rw [List.append_nil, List.take_append_drop]
            exact h
          · exact h.insert_keyEnd (row tx.nextId op) rfl rfl (Row.indexed_row _ _)
        dsimp only
        unfold addSuccs
        rw [rows_setRows]
        exact hsplice.addSucc _ _
  unfold localMapOp
  exact hlocal rfl

end Tx

end AutomergeR
