import AutomergeR.SoundCalls
import Mathlib.Algebra.BigOperators.Group.List.Basic

/-! # Counters

What `am_counter_increment` makes of a delta, and what a counter holds after a run of such
calls. The delta is turned into an R integer first: a number that does not fit, or none at
all, is added as the smallest one.
-/

namespace AutomergeR

open Codec

variable {A : Type} [LinearOrder A]

namespace Tx

/-- One call after another, and the deltas of those that returned. -/
def increments (tx : Tx A) (obj : ObjId A) (key : RValue) : List RValue → Tx A × List RValue
  | [] => (tx, [])
  | delta :: deltas =>
    match tx.amCounterIncrement obj key delta with
    | (tx, .ok ()) =>
      let (tx, returned) := tx.increments obj key deltas
      (tx, delta :: returned)
    | (tx, .error _) => tx.increments obj key deltas

end Tx

/-! ## The value of a counter -/

/-- The numbers an `i64` holds. -/
def InI64 (n : ℤ) : Prop := -2 ^ 63 ≤ n ∧ n < 2 ^ 63

theorem addI64_right_comm (n a b : ℤ) : addI64 (addI64 n a) b = addI64 (addI64 n b) a := by
  unfold addI64
  rw [Int.bmod_add_bmod, Int.bmod_add_bmod, Int.add_right_comm]

/-- A sum that fits does not wrap, whatever the sums on the way to it do. -/
theorem foldl_addI64 (n : ℤ) (ds : List ℤ) (hlo : -2 ^ 63 ≤ n + ds.sum)
    (hhi : n + ds.sum < 2 ^ 63) : ds.foldl addI64 n = n + ds.sum := by
  have hmod : ∀ (ds : List ℤ) (n : ℤ),
      Int.bmod (ds.foldl addI64 n) (2 ^ 64) = Int.bmod (n + ds.sum) (2 ^ 64) := by
    intro ds
    induction ds with
    | nil =>
      intro n
      rw [List.sum_nil, Int.add_zero]
      rfl
    | cons d ds ih =>
      intro n
      rw [List.foldl_cons, ih, List.sum_cons]
      unfold addI64
      rw [Int.bmod_add_bmod, Int.add_assoc]
  induction ds using List.reverseRecOn with
  | nil => simp
  | append_singleton ds d _ =>
    have hwrap : Int.bmod (n + (ds ++ [d]).sum) (2 ^ 64) = n + (ds ++ [d]).sum :=
      Int.bmod_eq_of_le (by omega) (by omega)
    rw [← hwrap, ← hmod, List.foldl_append, List.foldl_cons, List.foldl_nil]
    unfold addI64
    exact Int.bmod_bmod.symm

namespace Row

omit [LinearOrder A] in
/-- A row that reads as a counter puts one. -/
theorem counter_of_value {r : Row A} {n : ℤ} (h : r.value = .scalar (.counter n)) :
    r.action.isCounter = true ∧ r.fixedValue = .counter n := by
  have hfixed : r.fixedValue = .counter n := by
    unfold value at h
    split at h
    · cases h
    · cases h
    · cases h
    · exact Value.scalar.inj h
  refine ⟨?_, hfixed⟩
  unfold fixedValue at hfixed
  split at hfixed
  · rename_i heq
    unfold OpType.isCounter
    rw [heq]
  · unfold OpType.isCounter
    rw [hfixed]

/-- A counter with one increment more. -/
theorem value_addSucc_counter {r : Row A} {n : ℤ} (h : r.value = .scalar (.counter n))
    (id : OpId A) (d : ℤ) : (r.addSucc (id, some d)).value = .scalar (.counter (addI64 n d)) := by
  obtain ⟨hc, hfixed⟩ := counter_of_value h
  have hsucc : (r.addSucc (id, some d)).succ =
      r.succ.takeWhile (·.1 ≤ id) ++ (id, some d) :: r.succ.dropWhile (·.1 ≤ id) := by
    simp [addSucc, hc]
  have hperm : (r.addSucc (id, some d)).succ.Perm (r.succ ++ [(id, some d)]) := by
    rw [hsucc]
    refine List.perm_middle.trans ?_
    rw [List.takeWhile_append_dropWhile]
    exact (List.perm_append_singleton _ _).symm
  have hfold : ∀ m, (r.addSucc (id, some d)).succ.foldl (fun n s => addI64 n (s.2.getD 0)) m =
      addI64 (r.succ.foldl (fun n s => addI64 n (s.2.getD 0)) m) d := by
    intro m
    have hcomm : RightCommutative fun (n : ℤ) (s : OpId A × Option ℤ) => addI64 n (s.2.getD 0) :=
      ⟨fun n a b => addI64_right_comm n _ _⟩
    rw [hperm.foldl_eq, List.foldl_append]
    rfl
  have hnew : (r.addSucc (id, some d)).fixedValue = .counter (addI64 n d) := by
    unfold fixedValue at hfixed ⊢
    rw [addSucc_action]
    split at hfixed
    · cases hfixed
      rw [hfold]
    · rename_i hno
      exact absurd hfixed (hno _)
  unfold value at h ⊢
  rw [addSucc_action]
  split at h
  · cases h
  · cases h
  · cases h
  · rw [hnew]

end Row

/-! ## The delta -/

namespace RValue

/-- A single integer or double. -/
def IsDelta (delta : RValue) : Prop := delta.isNumeric = true ∧ delta.length = 1

/-- A number cut off toward zero. A missing one or an infinite one has no such. -/
def truncated : RValue → Option ℤ
  | .integer _ [n] => if n.toInt = naInteger then none else some n.toInt
  | .double _ [bits] => if Binary64.isFinite bits then some (Binary64.trunc bits) else none
  | _ => none

/-- Whether there is such a number, of 32 bits. -/
def fits32 (delta : RValue) : Bool := delta.truncated.any fun d => -2 ^ 31 ≤ d ∧ d < 2 ^ 31

/-- R's conversion is exact on what fits. The smallest integer is what a failure yields,
so it is converted all the same. -/
theorem truncated_of_fits32 {delta : RValue} (h : delta.fits32 = true) :
    delta.truncated = some delta.asInteger := by
  obtain ⟨d, hd, hfits⟩ := (Option.any_eq_true _ _).mp h
  have hfits := of_decide_eq_true hfits
  rw [hd]
  unfold truncated at hd
  split at hd
  · split at hd
    · cases hd
    · cases hd
      rfl
  · split at hd
    · rename_i hfin
      cases hd
      unfold asInteger integerOfReal
      dsimp only
      split
      · rfl
      · rename_i hout
        have hmin : ¬ -2 ^ 31 < Binary64.trunc _ := fun hlt => hout ⟨hfin, hlt, hfits.2⟩
        exact congrArg some (le_antisymm (not_lt.mp hmin) hfits.1)
    · cases hd
  · cases hd

/-- What does not fit is converted to the smallest integer. -/
theorem asInteger_of_not_fits32 {delta : RValue} (hone : delta.length = 1)
    (h : delta.fits32 = false) :
    delta.asInteger = -2 ^ 31 ∧ delta.truncated ≠ some (-2 ^ 31) := by
  have hno : ∀ d, delta.truncated = some d → ¬ (-2 ^ 31 ≤ d ∧ d < 2 ^ 31) := by
    intro d hd hfits
    unfold fits32 at h
    rw [hd, Option.any_some, decide_eq_false_iff_not] at h
    exact h hfits
  refine ⟨?_, fun hmin => hno _ hmin ⟨le_refl _, by decide⟩⟩
  cases delta with
  | integer cls xs =>
    obtain ⟨n, rfl⟩ := List.length_eq_one_iff.mp hone
    show n.toInt = naInteger
    by_contra hna
    have hlo := n.le_toInt
    have hhi := n.toInt_lt
    exact hno n.toInt (if_neg hna) ⟨by omega, by omega⟩
  | double cls xs =>
    obtain ⟨bits, rfl⟩ := List.length_eq_one_iff.mp hone
    show integerOfReal bits = naInteger
    apply if_neg
    rintro ⟨hfin, hlo, hhi⟩
    exact hno (Binary64.trunc bits) (if_pos hfin) ⟨hlo.le, hhi⟩
  | null | logical | character | raw | list | namedList | other => rfl

end RValue

/-! ## One call -/

namespace OpSet

/-- The counter at a key or position, and what it counts. -/
structure HoldsCounter (s : OpSet A) (obj : ObjId A) (key : RValue) (n : ℤ) : Prop where
  slot : s.IsSlot obj key
  single : key.length = 1
  found : s.find obj key = some (.scalar (.counter n))

theorem visibleAtKey_cons_pos {r : Row A} {prop : String} (hv : r.visible = true)
    (hk : r.key = .map prop) (l : List (Row A)) :
    visibleAtKey (r :: l) prop = r :: visibleAtKey l prop :=
  List.filter_cons_of_pos (by simp [hv, hk])

theorem visibleAtKey_cons_neg {r : Row A} {prop : String}
    (h : ¬ (r.visible = true ∧ r.key = .map prop)) (l : List (Row A)) :
    visibleAtKey (r :: l) prop = visibleAtKey l prop :=
  List.filter_cons_of_neg (by simpa using h)

/-- Among the operations at a key that an increment follows, the counters stay visible. -/
theorem visibleAtKey_succRows {ids : List (OpId A)} {s : OpId A × Option ℤ}
    (hs : s.2.isSome = true) {prop : String} (l : List (Row A))
    (hl : ∀ r ∈ visibleAtKey l prop, r.id ∈ ids) :
    visibleAtKey (Tx.succRows l ids s) prop =
      ((visibleAtKey l prop).filter fun r => r.action.isCounter).map (·.addSucc s) := by
  have hcons : ∀ (r : Row A) l, Tx.succRows (r :: l) ids s =
      (if r.id ∈ ids then r.addSucc s else r) :: Tx.succRows l ids s := fun _ _ => rfl
  induction l with
  | nil => rfl
  | cons r l ih =>
    by_cases hr : r.visible = true ∧ r.key = .map prop
    · obtain ⟨hv, hk⟩ := hr
      rw [visibleAtKey_cons_pos hv hk] at hl ⊢
      have ih := ih fun x hx => hl x (List.mem_cons_of_mem _ hx)
      have hkey : (r.addSucc s).key = .map prop := by
        rw [Row.addSucc_key, hk]
      have hvis : (r.addSucc s).visible = r.action.isCounter := by
        rw [Row.addSucc_visible, hv, hs, Bool.true_and, Bool.and_true]
      rw [hcons, if_pos (hl r List.mem_cons_self)]
      cases hc : r.action.isCounter with
      | true =>
        rw [visibleAtKey_cons_pos (hvis.trans hc) hkey, List.filter_cons_of_pos (by exact hc),
          List.map_cons, ih]
      | false =>
        have hno : ¬ ((r.addSucc s).visible = true ∧ (r.addSucc s).key = .map prop) := by
          rw [hvis, hc]
          exact fun h => Bool.false_ne_true h.1
        rw [visibleAtKey_cons_neg hno, List.filter_cons_of_neg (by rw [hc]; decide), ih]
    · rw [visibleAtKey_cons_neg hr] at hl ⊢
      have hno : ¬ ((if r.id ∈ ids then r.addSucc s else r).visible = true ∧
          (if r.id ∈ ids then r.addSucc s else r).key = .map prop) := by
        split
        · rw [Row.addSucc_visible, Row.addSucc_key]
          simp only [Bool.and_eq_true]
          exact fun h => hr ⟨h.1.1.1, h.2⟩
        · exact hr
      rw [hcons, visibleAtKey_cons_neg hno, ih hl]

/-- What is visible at a key after the increment of all that was. -/
theorem visibleAtKey_increment {rows : List (Row A)} {pos : ℕ} {new : Row A} {prop : String}
    (hnew : new.visible = false) {s : OpId A × Option ℤ} (hs : s.2.isSome = true) :
    visibleAtKey (Tx.overwrite rows pos [new] ((visibleAtKey rows prop).map Row.id) s) prop =
      ((visibleAtKey rows prop).filter fun r => r.action.isCounter).map (·.addSucc s) := by
  have hnone : visibleAtKey [new] prop = [] := by
    apply visibleAtKey_cons_neg
    rw [hnew]
    exact fun h => Bool.false_ne_true h.1
  have hvis : visibleAtKey (rows.take pos ++ [new] ++ rows.drop pos) prop =
      visibleAtKey rows prop := by
    rw [Tx.visibleAtKey_append, Tx.visibleAtKey_append, hnone, List.append_nil,
      ← Tx.visibleAtKey_append, List.take_append_drop]
  unfold Tx.overwrite
  rw [visibleAtKey_succRows hs _ fun r hr => List.mem_map_of_mem (hvis ▸ hr), hvis]

end OpSet

namespace Tx

variable {tx : Tx A} {obj : ObjId A}

/-- An increment at a key whose last value is a counter is a successor of the counter. -/
theorem localMapOp_increment (tx : Tx A) (obj : ObjId A) {prop : String} {r : Row A}
    (hlast : (OpSet.visibleAtKey (tx.ops.rows obj) prop).getLast? = some r)
    (hc : r.action.isCounter = true) (d : ℤ) :
    ∃ tx' id, tx.localMapOp obj prop (.increment d) = (tx', .ok id) ∧
      (OpSet.visibleAtKey (tx'.ops.rows obj) prop).getLast? =
        some (r.addSucc (tx.nextId, some d)) := by
  let found : OpSet.OpsFound A :=
    ⟨0, OpSet.visibleAtKey (tx.ops.rows obj) prop, keyEnd (tx.ops.rows obj) prop⟩
  obtain ⟨tx', hlocal, hrows⟩ := rows_localOp_increment tx obj (.map prop) found d
    ⟨r, List.mem_of_getLast? hlast, hc⟩
  refine ⟨tx', some tx.nextId, ?_, ?_⟩
  · show ((tx.localOp obj (.map prop) found (.increment d)).1,
      (tx.localOp obj (.map prop) found (.increment d)).2.map Prod.fst) = _
    rw [hlocal]
    rfl
  · obtain ⟨front, hfront⟩ := List.getLast?_eq_some_iff.mp hlast
    rw [hrows]
    show (OpSet.visibleAtKey (overwrite _ _ _ ((OpSet.visibleAtKey (tx.ops.rows obj) prop).map
      Row.id) _) prop).getLast? = _
    have hkeep : ([r].filter fun r => r.action.isCounter) = [r] := by
      rw [List.filter_cons_of_pos (by exact hc), List.filter_nil]
    rw [OpSet.visibleAtKey_increment rfl rfl, hfront, List.filter_append, hkeep,
      List.map_append, List.map_singleton, List.getLast?_concat]

/-- **One increment.** The call returns, and the counter has the delta more, as the integer
that R makes of it. -/
theorem amCounterIncrement_counter (h : tx.Sound) {key : RValue} {n : ℤ}
    (hn : tx.ops.HoldsCounter obj key n) {delta : RValue} (hd : delta.IsDelta) :
    ∃ tx', tx.amCounterIncrement obj key delta = (tx', .ok ()) ∧ tx'.Sound ∧
      tx'.ops.HoldsCounter obj key (addI64 n delta.asInteger) := by
  obtain ⟨hs, hlen, hfind⟩ := hn
  obtain ⟨hnum, hone⟩ := hd
  have hsound := sound_amCounterIncrement h obj key delta
  cases hs with
  | key ht =>
    obtain ⟨cls, k, rfl, hk⟩ := OpSet.find_key ht hfind
    obtain ⟨prop, hprop⟩ := Option.isSome_iff_exists.mp hk
    rw [OpSet.find_visible ht hprop] at hfind
    obtain ⟨r, hlast, hvalue⟩ := Option.map_eq_some_iff.mp hfind
    obtain ⟨hc, -⟩ := Row.counter_of_value hvalue
    obtain ⟨tx', id, hlocal, hlast'⟩ := localMapOp_increment tx obj hlast hc delta.asInteger
    have hinc : tx.increment obj (.map prop) delta.asInteger = (tx', .ok id) := by
      unfold increment objMeta
      rw [ht]
      exact hlocal
    have hcall : tx.amCounterIncrement obj (.character cls [k]) delta = (tx', .ok ()) := by
      unfold amCounterIncrement
      simp only [hnum, hone, isMap_of_map ht, hprop, hinc]
      rfl
    have ht' : tx'.ops.objectType obj = some .map := by
      have hw := writes_increment h.toFresh obj (.map prop) delta.asInteger
      rw [hinc] at hw
      exact (hw.objectType obj (h.made ht)).trans ht
    rw [hcall] at hsound
    refine ⟨tx', hcall, hsound, .key ht', rfl, ?_⟩
    rw [OpSet.find_visible ht' hprop, hlast', Option.map_some, Row.value_addSucc_counter hvalue]
  | pos ht hk =>
    have hl := h.lists obj ht
    obtain ⟨hpos, p, hp, hi, hvalue⟩ := OpSet.place_of_find ht hl.topLast hk hfind
    have hvalue := hvalue.symm
    obtain ⟨hc, -⟩ := Row.counter_of_value hvalue
    obtain ⟨tx', id, hlocal, hkeep, p', hp', hpre, -, hrow⟩ :=
      localListOp_increment h.toFresh p hp hc delta.asInteger
    have hi' : p'.index = p.index := OpSet.Place.index_of_pre hpre
    have hinc : tx.increment obj (.seq p.index) delta.asInteger = (tx', .ok id) := by
      unfold increment objMeta
      rw [ht]
      exact hlocal
    have hcall : tx.amCounterIncrement obj key delta = (tx', .ok ()) := by
      unfold amCounterIncrement
      simp only [hnum, hone, isMap_of_list ht, ht, hk, hlen, hpos, ← hi,
        OpSet.adjust_place ht hp hl.topLast, hinc]
      rfl
    have ht' : tx'.ops.objectType obj = some .list := by
      have hw := writes_increment h.toFresh obj (.seq p.index) delta.asInteger
      rw [hinc] at hw
      exact (hw.objectType obj (h.made ht)).trans ht
    rw [hcall] at hsound
    refine ⟨tx', hcall, hsound, .pos ht' hk, hlen, ?_⟩
    rw [OpSet.find_place ht' hp' (hkeep hl).topLast hk hpos (hi'.trans hi), hrow,
      Row.value_addSucc_counter hvalue]

/-! ## Runs -/

/-- What a call owes the counter: an error leaves it, else it has changed by exactly the
delta cut off. -/
def Accounts (tx : Tx A) (obj : ObjId A) (key delta : RValue) : Prop :=
  ∀ n, tx.ops.HoldsCounter obj key n →
    match tx.amCounterIncrement obj key delta with
    | (tx', .error _) => tx'.ops.HoldsCounter obj key n
    | (tx', .ok ()) =>
      ∃ d, delta.truncated = some d ∧ (InI64 (n + d) → tx'.ops.HoldsCounter obj key (n + d))

/-- What the calls that returned add up to. -/
def total (returned : List RValue) : ℤ := (returned.map fun delta => delta.truncated.getD 0).sum

theorem accounts_of_fits32 (h : tx.Sound) (obj : ObjId A) (key : RValue) {delta : RValue}
    (hd : delta.IsDelta) (hfits : delta.fits32 = true) : Accounts tx obj key delta := by
  intro n hn
  obtain ⟨tx', hcall, -, hn'⟩ := amCounterIncrement_counter h hn hd
  rw [hcall]
  refine ⟨_, RValue.truncated_of_fits32 hfits, fun hin => ?_⟩
  have hsum : addI64 n delta.asInteger = n + delta.asInteger :=
    Int.bmod_eq_of_le (by have := hin.1; omega) (by have := hin.2; omega)
  rwa [hsum] at hn'

/-- A run of increments with numeric deltas: all return, and each is added as the integer R
makes of it. -/
theorem increments_counter {key : RValue} (deltas : List RValue)
    (hd : ∀ delta ∈ deltas, delta.IsDelta) :
    ∀ {tx : Tx A} {n : ℤ}, tx.Sound → tx.ops.HoldsCounter obj key n →
      (tx.increments obj key deltas).2 = deltas ∧ (tx.increments obj key deltas).1.Sound ∧
        (tx.increments obj key deltas).1.ops.HoldsCounter obj key
          ((deltas.map RValue.asInteger).foldl addI64 n) := by
  induction deltas with
  | nil => exact fun h hn => ⟨rfl, h, hn⟩
  | cons delta deltas ih =>
    intro tx n h hn
    obtain ⟨tx', hcall, h', hn'⟩ :=
      amCounterIncrement_counter h hn (hd delta List.mem_cons_self)
    obtain ⟨hret, hsound, hholds⟩ := ih (fun x hx => hd x (List.mem_cons_of_mem _ hx)) h' hn'
    unfold increments
    rw [hcall]
    exact ⟨congrArg _ hret, hsound, hholds⟩

/-- **Runs of increments.** When every delta, cut off toward zero, is a number of 32 bits,
each call of a run changes the counter by exactly this number, and after the run it holds
what it held and the sum. Any other delta is added as the smallest 32-bit integer. -/
theorem increments_account (h : tx.Sound) {key : RValue} {n : ℤ}
    (hn : tx.ops.HoldsCounter obj key n) {deltas : List RValue}
    (hd : ∀ delta ∈ deltas, delta.IsDelta) :
    ((∀ delta ∈ deltas, delta.fits32 = true) →
      (∀ done delta rest, deltas = done ++ delta :: rest →
        Accounts (tx.increments obj key done).1 obj key delta) ∧
      ∀ tx' returned, tx.increments obj key deltas = (tx', returned) →
        InI64 (n + total returned) → tx'.ops.HoldsCounter obj key (n + total returned)) ∧
    ∀ done delta rest m, deltas = done ++ delta :: rest → delta.fits32 = false →
      (tx.increments obj key done).1.ops.HoldsCounter obj key m →
        delta.truncated ≠ some (-2 ^ 31) ∧
        ∃ tx', (tx.increments obj key done).1.amCounterIncrement obj key delta = (tx', .ok ()) ∧
          tx'.ops.HoldsCounter obj key (addI64 m (-2 ^ 31)) := by
  have hsound : ∀ done delta rest, deltas = done ++ delta :: rest →
      (tx.increments obj key done).1.Sound ∧ delta.IsDelta := by
    rintro done delta rest rfl
    obtain ⟨-, h', -⟩ := increments_counter done (fun x hx => hd x (List.mem_append_left _ hx)) h hn
    exact ⟨h', hd delta (List.mem_append_right _ List.mem_cons_self)⟩
  refine ⟨fun hfits => ⟨fun done delta rest hsplit => ?_, fun tx' returned hrun hin => ?_⟩, ?_⟩
  · obtain ⟨h', hdelta⟩ := hsound done delta rest hsplit
    refine accounts_of_fits32 h' obj key hdelta (hfits delta ?_)
    rw [hsplit]
    exact List.mem_append_right _ List.mem_cons_self
  · obtain ⟨hret, -, hholds⟩ := increments_counter deltas hd h hn
    rw [hrun] at hret hholds
    obtain rfl : returned = deltas := hret
    have hsum : (returned.map RValue.asInteger).sum = total returned := by
      unfold total
      refine congrArg List.sum (List.map_congr_left fun delta hdelta => ?_)
      rw [RValue.truncated_of_fits32 (hfits delta hdelta)]
      rfl
    rw [← hsum] at hin ⊢
    rwa [foldl_addI64 n _ hin.1 hin.2] at hholds
  · intro done delta rest m hsplit hout hm
    obtain ⟨h', hdelta⟩ := hsound done delta rest hsplit
    obtain ⟨hmin, hne⟩ := RValue.asInteger_of_not_fits32 hdelta.2 hout
    obtain ⟨tx', hcall, -, hm'⟩ := amCounterIncrement_counter h' hm hdelta
    rw [hmin] at hm'
    exact ⟨hne, tx', hcall, hm'⟩

/-- A new document with the counter 5 at `x`. -/
def counterFive : Tx ℕ :=
  ((Tx.new 1).amPut none (.character [] [.lit "x"]) (.integer ["am_counter"] [5])).1

theorem counterFive_holds : counterFive.ops.HoldsCounter none (.character [] [.lit "x"]) 5 :=
  ⟨.key rfl, rfl, by decide +kernel⟩

theorem increments_account_three :
    InI64 (5 + total [.integer [] [3], .integer [] [-4]]) ∧
      (counterFive.increments none (.character [] [.lit "x"])
        [.integer [] [3], .integer [] [-4]]).1.ops.HoldsCounter none
          (.character [] [.lit "x"]) 4 := by
  have hsound : counterFive.Sound := sound_amPut (sound_new 1) _ _ _
  have hd : ∀ delta ∈ ([.integer [] [3], .integer [] [-4]] : List RValue), delta.IsDelta := by
    intro delta hdelta
    rcases List.mem_cons.mp hdelta with rfl | hdelta
    · exact ⟨rfl, rfl⟩
    · rw [List.mem_singleton.mp hdelta]
      exact ⟨rfl, rfl⟩
  obtain ⟨hrun, -⟩ := increments_account hsound counterFive_holds hd
  obtain ⟨-, hrun⟩ := hrun (by decide)
  have hin : InI64 (5 + total [.integer [] [3], .integer [] [-4]]) := ⟨by decide, by decide⟩
  exact ⟨hin, hrun _ _ rfl hin⟩

/-- The delta `NA` is added: the call returns, and the counter has lost 2147483648. -/
theorem amCounterIncrement_na :
    ¬ Accounts counterFive none (.character [] [.lit "x"]) (.integer [] [Int32.minValue]) ∧
      ∃ tx', counterFive.amCounterIncrement none (.character [] [.lit "x"])
          (.integer [] [Int32.minValue]) = (tx', .ok ()) ∧
        tx'.ops.HoldsCounter none (.character [] [.lit "x"]) (5 - 2147483648) := by
  constructor
  · intro h
    obtain ⟨d, hd, -⟩ := h 5 counterFive_holds
    cases hd
  · exact ⟨_, rfl, .key rfl, rfl, by decide +kernel⟩

end Tx

end AutomergeR
