import Mathlib.Data.List.Basic
import Mathlib.Data.List.Nodup
import Mathlib.Order.Lattice

/-! # Runs of equal keys

In a list that is grouped by a key the elements with one key stand together, in a run. A loop
that goes over the list, with something to be done whenever the key changes, goes over the
runs one by one (`scan_flatMap`).
-/

namespace Runs

variable {α β κ μ σ : Type*} {key : α → κ}

/-- The elements of the runs. -/
def elems (runs : List (κ × List α)) : List α := runs.flatMap Prod.snd

/-- Runs with different keys. -/
structure Keyed (key : α → κ) (runs : List (κ × List α)) : Prop where
  nodup : (runs.map Prod.fst).Nodup
  key : ∀ run ∈ runs, ∀ x ∈ run.2, key x = run.1

def Grouped (key : α → κ) (l : List α) : Prop := ∃ runs, Keyed key runs ∧ elems runs = l

theorem mem_elems {runs : List (κ × List α)} {x : α} :
    x ∈ elems runs ↔ ∃ run ∈ runs, x ∈ run.2 := List.mem_flatMap

namespace Keyed

variable {runs : List (κ × List α)}

theorem tail {run : κ × List α} (h : Keyed key (run :: runs)) : Keyed key runs :=
  ⟨(List.nodup_cons.mp h.nodup).2, fun r hr => h.key r (List.mem_cons_of_mem run hr)⟩

/-- A key has one run. -/
theorem eq_of_key (h : Keyed key runs) {run run' : κ × List α} (hr : run ∈ runs) (hr' : run' ∈ runs)
    {x y : α} (hx : x ∈ run.2) (hy : y ∈ run'.2) (heq : key x = key y) : run = run' := by
  rw [h.key run hr x hx, h.key run' hr' y hy] at heq
  exact List.inj_on_of_nodup_map h.nodup hr hr' heq

/-- The elements before and behind a run have other keys. -/
theorem other (h : Keyed key runs) {before after : List (κ × List α)} {run : κ × List α}
    (heq : runs = before ++ run :: after) {x : α} (hx : x ∈ elems before ++ elems after) :
    key x ≠ run.1 := by
  intro hk
  have hnd := h.nodup
  rw [heq, List.map_append, List.map_cons, List.nodup_append] at hnd
  rcases List.mem_append.mp hx with hx | hx
  · obtain ⟨run', hrun', hx⟩ := mem_elems.mp hx
    have hk' := h.key run' (heq ▸ List.mem_append_left _ hrun') x hx
    exact hnd.2.2 _ (List.mem_map_of_mem hrun') _ List.mem_cons_self (hk'.symm.trans hk)
  · obtain ⟨run', hrun', hx⟩ := mem_elems.mp hx
    have hin : run' ∈ runs := by
      rw [heq]
      exact List.mem_append_right before (List.mem_cons_of_mem run hrun')
    refine (List.nodup_cons.mp hnd.2.1).1 ?_
    rw [← hk, h.key run' hin x hx]
    exact List.mem_map_of_mem hrun'

end Keyed

namespace Grouped

variable {l l' : List α}

theorem nil : Grouped key ([] : List α) := ⟨[], ⟨List.nodup_nil, by simp⟩, rfl⟩

theorem filter (h : Grouped key l) (p : α → Bool) : Grouped key (l.filter p) := by
  obtain ⟨runs, hk, rfl⟩ := h
  refine ⟨runs.map fun run => (run.1, run.2.filter p), ⟨?_, ?_⟩, ?_⟩
  · rw [List.map_map]
    exact hk.nodup
  · intro r hr x hx
    obtain ⟨run, hrun, rfl⟩ := List.mem_map.mp hr
    exact hk.key run hrun x (List.mem_of_mem_filter hx)
  · unfold elems
    rw [List.flatMap_map, List.filter_flatMap]

theorem map (h : Grouped key l) {key' : β → μ} (f : α → β) {g : κ → μ}
    (hg : Function.Injective g) (hf : ∀ x ∈ l, key' (f x) = g (key x)) : Grouped key' (l.map f) := by
  obtain ⟨runs, hk, rfl⟩ := h
  refine ⟨runs.map fun run => (g run.1, run.2.map f), ⟨?_, ?_⟩, ?_⟩
  · have hnd := hk.nodup.map hg
    rw [List.map_map] at hnd ⊢
    exact hnd
  · intro r hr y hy
    obtain ⟨run, hrun, rfl⟩ := List.mem_map.mp hr
    obtain ⟨x, hx, rfl⟩ := List.mem_map.mp hy
    exact (hf x (mem_elems.mpr ⟨run, hrun, hx⟩)).trans (congrArg g (hk.key run hrun x hx))
  · unfold elems
    rw [List.flatMap_map, List.map_flatMap]

/-- Grouped lists with different marks, one behind the other. -/
theorem flatMap {ι : Type*} {f : ι → List α} {is : List ι} (hnd : is.Nodup)
    (h : ∀ i ∈ is, Grouped key (f i)) :
    Grouped (fun x : ι × α => (x.1, key x.2)) (is.flatMap fun i => (f i).map fun x => (i, x)) := by
  suffices ∃ runs, Keyed (fun x : ι × α => (x.1, key x.2)) runs ∧
      elems runs = (is.flatMap fun i => (f i).map fun x => (i, x)) ∧ ∀ run ∈ runs, run.1.1 ∈ is from
    let ⟨runs, hk, hl, _⟩ := this
    ⟨runs, hk, hl⟩
  induction is with
  | nil => exact ⟨[], ⟨List.nodup_nil, by simp⟩, rfl, by simp⟩
  | cons i is ih =>
    obtain ⟨hi, hnd⟩ := List.nodup_cons.mp hnd
    obtain ⟨rest, hk, hrest, hmem⟩ := ih hnd fun j hj => h j (List.mem_cons_of_mem i hj)
    obtain ⟨runs, hki, hruns⟩ := h i List.mem_cons_self
    refine ⟨(runs.map fun run => ((i, run.1), run.2.map fun x => (i, x))) ++ rest, ⟨?_, fun r hr x hx => ?_⟩,
      ?_, fun r hr => ?_⟩
    · rw [List.map_append, List.map_map]
      refine List.nodup_append.mpr ⟨?_, hk.nodup, fun a ha b hb heq => ?_⟩
      · have hinj := hki.nodup.map fun (a b : κ) (heq : (i, a) = (i, b)) => (Prod.mk.inj heq).2
        rw [List.map_map] at hinj
        exact hinj
      · obtain ⟨run, -, rfl⟩ := List.mem_map.mp ha
        obtain ⟨run', hrun', rfl⟩ := List.mem_map.mp hb
        have hfst : i = run'.1.1 := congrArg Prod.fst heq
        exact hi (hfst ▸ hmem run' hrun')
    · rcases List.mem_append.mp hr with hr | hr
      · obtain ⟨run, hrun, rfl⟩ := List.mem_map.mp hr
        obtain ⟨y, hy, rfl⟩ := List.mem_map.mp hx
        exact Prod.ext rfl (hki.key run hrun y hy)
      · exact hk.key r hr x hx
    · rw [List.flatMap_cons, ← hrest, ← hruns]
      unfold elems
      rw [List.flatMap_append, List.flatMap_map, List.map_flatMap]
    · rcases List.mem_append.mp hr with hr | hr
      · obtain ⟨run, -, rfl⟩ := List.mem_map.mp hr
        exact List.mem_cons_self
      · exact List.mem_cons_of_mem i (hmem r hr)

/-- A sorted list. -/
theorem of_sorted [LinearOrder κ] (h : l.Pairwise fun x y => key x ≤ key y) : Grouped key l := by
  suffices ∃ runs, Keyed key runs ∧ elems runs = l ∧ ∀ run ∈ runs, run.2 ≠ [] from
    let ⟨runs, hk, hl, _⟩ := this
    ⟨runs, hk, hl⟩
  induction l with
  | nil => exact ⟨[], ⟨List.nodup_nil, by simp⟩, rfl, by simp⟩
  | cons x l ih =>
    obtain ⟨hx, hl⟩ := List.pairwise_cons.mp h
    obtain ⟨runs, hk, rfl, hne⟩ := ih hl
    cases runs with
    | nil => exact ⟨[(key x, [x])], ⟨by simp, by simp⟩, rfl, by simp⟩
    | cons run runs =>
      have hrun := hne run List.mem_cons_self
      obtain ⟨k, ys⟩ := run
      cases ys with
      | nil => exact absurd rfl hrun
      | cons y ys =>
        have hky : key y = k := hk.key _ List.mem_cons_self y List.mem_cons_self
        by_cases heq : key x = k
        · refine ⟨(k, x :: y :: ys) :: runs, ⟨hk.nodup, fun r hr z hz => ?_⟩, rfl, fun r hr => ?_⟩
          · rcases List.mem_cons.mp hr with rfl | hr
            · rcases List.mem_cons.mp hz with rfl | hz
              · exact heq
              · exact hk.key _ List.mem_cons_self z hz
            · exact hk.key r (List.mem_cons_of_mem _ hr) z hz
          · rcases List.mem_cons.mp hr with rfl | hr
            · simp
            · exact hne r (List.mem_cons_of_mem _ hr)
        · refine ⟨(key x, [x]) :: (k, y :: ys) :: runs, ⟨?_, fun r hr z hz => ?_⟩, rfl, fun r hr => ?_⟩
          · refine List.nodup_cons.mpr ⟨fun hmem => ?_, hk.nodup⟩
            obtain ⟨r, hr, hrk⟩ := List.mem_map.mp hmem
            obtain ⟨z, hz⟩ := List.exists_mem_of_ne_nil _ (hne r hr)
            have hkz : key z = key x := (hk.key r hr z hz).trans hrk
            -- the first of the list is between `x` and `z`
            have hyz : key y ≤ key z := by
              rcases List.mem_cons.mp (show z ∈ y :: (ys ++ elems runs) from
                mem_elems.mpr ⟨r, hr, hz⟩) with rfl | hz'
              · exact le_rfl
              · exact (List.pairwise_cons.mp hl).1 z hz'
            refine heq (le_antisymm ?_ ?_)
            · rw [← hky]
              exact hx y List.mem_cons_self
            · rw [← hky, ← hkz]
              exact hyz
          · rcases List.mem_cons.mp hr with rfl | hr
            · rw [List.mem_singleton.mp hz]
            · exact hk.key r hr z hz
          · rcases List.mem_cons.mp hr with rfl | hr
            · simp
            · exact hne r hr

end Grouped

/-! ## Loops -/

section Scan

variable [DecidableEq κ] (key : α → κ) (flush : σ → σ) (step : σ → α → σ)

/-- A loop that does something more whenever the key changes, and at the end. -/
def scan : (last : Option κ) → σ → List α → σ
  | _, s, [] => flush s
  | last, s, x :: l =>
    scan (some (key x)) (step (if last = some (key x) then s else flush s) x) l

variable {key flush step}

/-- The rest of a run. -/
theorem scan_run {k : κ} {run : List α} (hrun : ∀ x ∈ run, key x = k) (l : List α) (s : σ) :
    scan key flush step (some k) s (run ++ l) =
      scan key flush step (some k) (run.foldl step s) l := by
  induction run generalizing s with
  | nil => rfl
  | cons x run ih =>
    have hx : key x = k := hrun x List.mem_cons_self
    rw [List.cons_append, scan, hx, if_pos rfl, ih fun y hy => hrun y (List.mem_cons_of_mem x hy),
      List.foldl_cons]

/-- A run is gone through, and what is to be done at its end is done. -/
def onRun (flush : σ → σ) (step : σ → α → σ) (s : σ) (run : κ × List α) : σ :=
  if run.2.isEmpty then s else flush (run.2.foldl step s)

/-- **The loop goes over the runs.** -/
theorem scan_elems {runs : List (κ × List α)} (h : Keyed key runs) {last : Option κ}
    (hlast : ∀ k ∈ last, k ∉ runs.map Prod.fst) (s : σ) :
    scan key flush step last s (elems runs) = runs.foldl (onRun flush step) (flush s) := by
  induction runs generalizing last s with
  | nil => cases last <;> rfl
  | cons run runs ih =>
    obtain ⟨k, xs⟩ := run
    have hnot := (List.nodup_cons.mp h.nodup).1
    have hrest : ∀ k' ∈ last, k' ∉ runs.map Prod.fst := fun k' hk' hmem =>
      hlast k' hk' (List.mem_cons_of_mem k hmem)
    cases xs with
    | nil => exact ih h.tail hrest s
    | cons x xs =>
      have hkey : ∀ y ∈ x :: xs, key y = k := h.key _ List.mem_cons_self
      have hne : last ≠ some k := fun heq => hlast k heq List.mem_cons_self
      have hx : key x = k := hkey x List.mem_cons_self
      show scan key flush step last s (x :: (xs ++ elems runs)) = _
      rw [scan, hx, if_neg hne, scan_run fun y hy => hkey y (List.mem_cons_of_mem x hy),
        ih h.tail fun k' hk' => by cases hk'; exact hnot]
      rfl

end Scan

end Runs
