import AutomergeR.ChangeCollector

/-! # The encoders of the changes

`op_set2/change/collector.rs`: the operations of a change come in the order of the columns. An
encoder puts them in the order of their counters, with slots for small changes (`VecEncoder`),
or writing what can be written and holding back the rest (`ProgressiveEncoder`). Both end with
exactly the operations of the change (`OpEncoderStrategy.finish_foldl`).
-/

namespace AutomergeR

variable {A B : Type}

/-- The errors with which changes are collected; `panicked` is an assertion, an index or an
`unwrap`. -/
inductive CollectError where
  | invalidMaxOp
  | changesOutOfOrder
  | incorrectMaxOp
  | missingOps
  | panicked
  deriving DecidableEq

/-! ## Slots -/

namespace VecEncoder

def new (numOps : ℕ) : List (Option B) := List.replicate numOps none

/-- `None` is an index out of bounds, or a slot that is not empty. -/
def add (data : List (Option B)) (x : ℕ × B) : Option (List (Option B)) :=
  match data[x.1]? with
  | some none => some (data.set x.1 (some x.2))
  | _ => none

def finish (maxOp : ℕ) (data : List (Option (OpId A × Op A))) :
    Except CollectError (List (OpId A × Op A)) :=
  let startPos := (data.findIdx? Option.isSome).getD 0
  match (data.drop startPos).mapM id with
  | none => .error .missingOps
  | some ops =>
    -- `assert_eq!(last.id.counter(), change.max_op)`
    if ops.getLast?.all fun last => last.1.counter = maxOp then .ok ops else .error .panicked

/-- `add`, where the slot is empty. -/
def put (data : List (Option B)) (x : ℕ × B) : List (Option B) := data.set x.1 (some x.2)

variable {xs : List (ℕ × B)}

theorem foldl_put_of_ne {i : ℕ} (h : ∀ x ∈ xs, x.1 ≠ i) (data : List (Option B)) :
    (xs.foldl put data)[i]? = data[i]? := by
  induction xs generalizing data with
  | nil => rfl
  | cons x xs ih =>
    rw [List.foldl_cons, ih fun y hy => h y (List.mem_cons_of_mem x hy)]
    exact List.getElem?_set_ne (h x List.mem_cons_self)

theorem length_foldl_put (data : List (Option B)) : (xs.foldl put data).length = data.length := by
  induction xs generalizing data with
  | nil => rfl
  | cons x xs ih => rw [List.foldl_cons, ih, put, List.length_set]

/-- No assertion fails where the index is a new one. -/
theorem add_foldl_put {n : ℕ} {x : ℕ × B} (hlt : x.1 < n) (hx : x.1 ∉ xs.map Prod.fst) :
    add (xs.foldl put (new n)) x = some ((xs ++ [x]).foldl put (new n)) := by
  have hother : ∀ y ∈ xs, y.1 ≠ x.1 := fun y hy heq => hx (heq ▸ List.mem_map_of_mem hy)
  have hempty : (xs.foldl put (new n))[x.1]? = some (none : Option B) := by
    rw [foldl_put_of_ne hother]
    exact List.getElem?_replicate_of_lt hlt
  unfold add
  rw [hempty, List.foldl_append]
  rfl

theorem foldl_put_of_mem (hnd : (xs.map Prod.fst).Nodup) {x : ℕ × B} (hx : x ∈ xs)
    (data : List (Option B)) (hlt : x.1 < data.length) :
    (xs.foldl put data)[x.1]? = some (some x.2) := by
  induction xs generalizing data with
  | nil => cases hx
  | cons y xs ih =>
    obtain ⟨hy, hnd⟩ := List.nodup_cons.mp hnd
    rw [List.foldl_cons]
    rcases List.mem_cons.mp hx with rfl | hx
    · have hother : ∀ z ∈ xs, z.1 ≠ x.1 := fun z hz heq => hy (heq ▸ List.mem_map_of_mem hz)
      rw [foldl_put_of_ne hother, put, List.getElem?_set_self hlt]
    · exact ih hnd hx _ (by rwa [put, List.length_set])

/-- **The slots hold the operations in order**, whatever the order in which they came. -/
theorem foldl_put_new {k : ℕ} {ops : List B} (hnd : (xs.map Prod.fst).Nodup)
    (hmem : ∀ x, x ∈ xs ↔ ∃ i, ops[i]? = some x.2 ∧ x.1 = k + i) :
    xs.foldl put (new (k + ops.length)) = List.replicate k none ++ ops.map some := by
  refine List.ext_getElem? fun j => ?_
  by_cases hj : j < k
  · have hother : ∀ x ∈ xs, x.1 ≠ j := fun x hx heq => by
      obtain ⟨i, -, hi⟩ := (hmem x).mp hx
      omega
    rw [foldl_put_of_ne hother, List.getElem?_append_left (by simpa using hj), new,
      List.getElem?_replicate_of_lt hj, List.getElem?_replicate_of_lt (by omega)]
  · obtain ⟨i, rfl⟩ := Nat.exists_eq_add_of_le (Nat.le_of_not_lt hj)
    rw [List.getElem?_append_right (by simp), List.length_replicate, Nat.add_sub_cancel_left,
      List.getElem?_map]
    cases hop : ops[i]? with
    | none =>
      show _ = none
      rw [List.getElem?_eq_none_iff, length_foldl_put, new, List.length_replicate]
      exact Nat.add_le_add_left (List.getElem?_eq_none_iff.mp hop) k
    | some op =>
      refine foldl_put_of_mem hnd ((hmem (k + i, op)).mpr ⟨i, hop, rfl⟩) _ ?_
      rw [new, List.length_replicate]
      exact Nat.add_lt_add_left (List.getElem?_eq_some_iff.mp hop).1 k

/-- Behind empty slots the operations are found, the last of them with the greatest counter. -/
theorem finish_append {k maxOp : ℕ} {ops : List (OpId A × Op A)} (hne : ops ≠ [])
    (hlast : ∀ last ∈ ops.getLast?, last.1.counter = maxOp) :
    finish maxOp (List.replicate k none ++ ops.map some) = .ok ops := by
  have hstart : (List.replicate k none ++ ops.map some).findIdx? Option.isSome = some k := by
    obtain ⟨op, ops, rfl⟩ := List.exists_cons_of_ne_nil hne
    rw [List.findIdx?_append, List.findIdx?_replicate]
    simp [List.findIdx?_cons]
  have hall : ∀ ops : List (OpId A × Op A), (ops.map some).mapM id = some ops := by
    intro ops
    induction ops with
    | nil => rfl
    | cons op ops ih =>
      rw [List.map_cons, List.mapM_cons, ih]
      rfl
  have hmax : (ops.getLast?.all fun last => decide (last.1.counter = maxOp)) = true := by
    cases hl : ops.getLast? with
    | none => rfl
    | some last => exact decide_eq_true (hlast last hl)
  unfold finish
  dsimp only
  rw [hstart, Option.getD_some, List.drop_left' (List.length_replicate ..), hall]
  exact if_pos hmax

end VecEncoder

/-! ## Written as they come -/

/-- `ProgressiveEncoder`: what is written, and what waits, by the indices. -/
structure ProgressiveEncoder (B : Type) where
  numOps : ℕ
  appended : List (ℕ × B)
  queue : List (ℕ × B)

namespace ProgressiveEncoder

def new (numOps : ℕ) : ProgressiveEncoder B := ⟨numOps, [], []⟩

/-- The loop of `add`: the queue gives what is next, while it has it. -/
def drain (numOps : ℕ) : List (ℕ × B) → List (ℕ × B) → ProgressiveEncoder B
  | appended, [] => ⟨numOps, appended, []⟩
  | appended, x :: queue =>
    if x.1 = appended.length then drain numOps (appended ++ [x]) queue
    else ⟨numOps, appended, x :: queue⟩

def add (e : ProgressiveEncoder B) (x : ℕ × B) : ProgressiveEncoder B :=
  if x.1 = e.appended.length then drain e.numOps (e.appended ++ [x]) e.queue
  else { e with queue := e.queue.filter (·.1 < x.1) ++ x :: e.queue.filter (x.1 < ·.1) }

/-- What `flush` leaves. -/
def written (e : ProgressiveEncoder B) : List (ℕ × B) := e.appended ++ e.queue

def finish (e : ProgressiveEncoder B) : List B := e.written.map Prod.snd

/-- What is written is the beginning, and the queue is sorted. -/
structure Ordered (e : ProgressiveEncoder B) (xs : List (ℕ × B)) : Prop where
  front : e.appended.map Prod.fst = List.range e.appended.length
  queue : e.queue.Pairwise fun x y => x.1 < y.1
  behind : ∀ x ∈ e.queue, e.appended.length ≤ x.1
  mem : ∀ x, x ∈ e.written ↔ x ∈ xs

theorem drain_ordered {numOps : ℕ} {xs : List (ℕ × B)} (queue : List (ℕ × B)) :
    ∀ {appended : List (ℕ × B)}, Ordered ⟨numOps, appended, queue⟩ xs →
      Ordered (drain numOps appended queue) xs := by
  induction queue with
  | nil => exact fun h => h
  | cons x queue ih =>
    intro appended h
    rw [drain]
    split
    · rename_i hx
      obtain ⟨hlt, hsorted⟩ := List.pairwise_cons.mp h.queue
      refine ih ⟨?_, hsorted, fun y hy => ?_, fun y => ?_⟩
      · have hfront : appended.map Prod.fst = List.range appended.length := h.front
        rw [List.map_append, hfront, List.map_singleton, hx, List.length_append,
          List.length_singleton, List.range_succ]
      · have hle := hlt y hy
        show (appended ++ [x]).length ≤ y.1
        rw [List.length_append, List.length_singleton, ← hx]
        exact hle
      · rw [← h.mem y]
        show y ∈ appended ++ [x] ++ queue ↔ y ∈ appended ++ x :: queue
        rw [List.append_assoc, List.singleton_append]
    · exact h

theorem numOps_drain {numOps : ℕ} (queue : List (ℕ × B)) :
    ∀ appended : List (ℕ × B), (drain numOps appended queue).numOps = numOps := by
  induction queue with
  | nil => exact fun _ => rfl
  | cons x queue ih =>
    intro appended
    rw [drain]
    split
    · exact ih _
    · rfl

@[simp] theorem numOps_add (e : ProgressiveEncoder B) (x : ℕ × B) : (e.add x).numOps = e.numOps := by
  unfold add
  split
  · exact numOps_drain _ _
  · rfl

theorem add_ordered {e : ProgressiveEncoder B} {xs : List (ℕ × B)} (h : Ordered e xs) {x : ℕ × B}
    (hx : x.1 ∉ xs.map Prod.fst) : Ordered (e.add x) (xs ++ [x]) := by
  have hnew : ∀ y ∈ e.written, y.1 ≠ x.1 := fun y hy heq =>
    hx (heq ▸ List.mem_map_of_mem ((h.mem y).mp hy))
  unfold add
  split
  · rename_i hlen
    refine drain_ordered e.queue ⟨?_, h.queue, fun y hy => ?_, fun y => ?_⟩
    · rw [List.map_append, h.front, List.map_singleton, hlen, List.length_append,
        List.length_singleton, List.range_succ]
    · have hle := h.behind y hy
      have hne := hnew y (List.mem_append_right _ hy)
      show (e.appended ++ [x]).length ≤ y.1
      rw [List.length_append, List.length_singleton]
      omega
    · rw [List.mem_append, ← h.mem y]
      show y ∈ e.appended ++ [x] ++ e.queue ↔ y ∈ e.appended ++ e.queue ∨ _
      simp only [List.mem_append]
      tauto
  · rename_i hlen
    have hle : e.appended.length ≤ x.1 := by
      by_contra hlt
      have hmem : x.1 ∈ e.appended.map Prod.fst := by
        rw [h.front, List.mem_range]
        omega
      obtain ⟨y, hy, heq⟩ := List.mem_map.mp hmem
      exact hnew y (List.mem_append_left _ hy) heq
    refine ⟨h.front, ?_, fun y hy => ?_, fun y => ?_⟩
    · have hlater : (x :: e.queue.filter (x.1 < ·.1)).Pairwise fun y z => y.1 < z.1 :=
        List.pairwise_cons.mpr ⟨fun y hy => of_decide_eq_true (List.mem_filter.mp hy).2,
          h.queue.filter _⟩
      refine List.pairwise_append.mpr ⟨h.queue.filter _, hlater, fun y hy z hz => ?_⟩
      have hy := of_decide_eq_true (List.mem_filter.mp hy).2
      rcases List.mem_cons.mp hz with rfl | hz
      · exact hy
      · exact hy.trans (of_decide_eq_true (List.mem_filter.mp hz).2)
    · rcases List.mem_append.mp hy with hy | hy
      · exact h.behind y (List.mem_filter.mp hy).1
      · rcases List.mem_cons.mp hy with rfl | hy
        · exact hle
        · exact h.behind y (List.mem_filter.mp hy).1
    · rw [List.mem_append, ← h.mem y]
      show y ∈ e.appended ++ (e.queue.filter (·.1 < x.1) ++ x :: e.queue.filter (x.1 < ·.1)) ↔
        y ∈ e.appended ++ e.queue ∨ _
      have hsplit : y ∈ e.queue → y.1 < x.1 ∨ x.1 < y.1 := fun hy =>
        lt_or_gt_of_ne (hnew y (List.mem_append_right _ hy))
      simp only [List.mem_append, List.mem_cons, List.mem_filter, decide_eq_true_eq, List.not_mem_nil,
        or_false]
      tauto

theorem foldl_ordered (ys : List (ℕ × B)) : ∀ {e : ProgressiveEncoder B} {xs : List (ℕ × B)},
    Ordered e xs → ((xs ++ ys).map Prod.fst).Nodup → Ordered (ys.foldl add e) (xs ++ ys) := by
  induction ys with
  | nil =>
    intro e xs h _
    rwa [List.append_nil]
  | cons y ys ih =>
    intro e xs h hnd
    have hy : y.1 ∉ xs.map Prod.fst := by
      rw [List.map_append, List.nodup_append] at hnd
      exact fun hmem => hnd.2.2 _ hmem _ List.mem_cons_self rfl
    have hrest := ih (add_ordered h hy) (by rwa [List.append_assoc])
    rwa [List.append_assoc] at hrest

/-- **What is written in the end is in order.** -/
theorem written_foldl {numOps : ℕ} {xs ys : List (ℕ × B)} (hnd : (xs.map Prod.fst).Nodup)
    (hys : ys.Pairwise fun x y => x.1 < y.1) (hmem : ∀ x, x ∈ xs ↔ x ∈ ys) :
    (xs.foldl add (new numOps)).written = ys := by
  have hnew : Ordered (new numOps : ProgressiveEncoder B) [] :=
    ⟨rfl, List.Pairwise.nil, fun _ hx => absurd hx List.not_mem_nil, fun _ => Iff.rfl⟩
  have h : Ordered (xs.foldl add (new numOps)) xs := foldl_ordered xs hnew hnd
  have hsorted : (xs.foldl add (new numOps)).written.Pairwise fun x y => x.1 < y.1 := by
    refine List.pairwise_append.mpr ⟨?_, h.queue, fun x hx y hy => ?_⟩
    · have hrange := List.pairwise_lt_range (n := (xs.foldl add (new numOps)).appended.length)
      rw [← h.front] at hrange
      exact List.pairwise_map.mp hrange
    · have hx : x.1 ∈ List.range (xs.foldl add (new numOps)).appended.length :=
        h.front ▸ List.mem_map_of_mem hx
      exact (List.mem_range.mp hx).trans_le (h.behind y hy)
  have hirrefl : Std.Irrefl fun x y : ℕ × B => x.1 < y.1 := ⟨fun x => lt_irrefl x.1⟩
  have hantisymm : Std.Antisymm fun x y : ℕ × B => x.1 < y.1 := ⟨fun x y h h' => absurd h' h.asymm⟩
  exact hsorted.eq_of_mem_iff hys fun x => (h.mem x).trans (hmem x)

/-- The operations are written in order, wherever the first of them has its index. -/
theorem finish_foldl {numOps k : ℕ} {xs : List (ℕ × B)} {ops : List B} (hnd : (xs.map Prod.fst).Nodup)
    (hmem : ∀ x, x ∈ xs ↔ ∃ i, ops[i]? = some x.2 ∧ x.1 = k + i) :
    (xs.foldl add (new numOps)).finish = ops := by
  have hwritten : (xs.foldl add (new numOps)).written = ops.zipIdx.map fun x => (k + x.2, x.1) := by
    refine written_foldl hnd ?_ fun x => ?_
    · have hlt : (ops.zipIdx.map Prod.snd).Pairwise (· < ·) := by
        rw [List.zipIdx_map_snd]
        exact List.pairwise_lt_range'
      exact List.pairwise_map.mpr ((List.pairwise_map.mp hlt).imp fun h => Nat.add_lt_add_left h k)
    · rw [hmem, List.mem_map]
      constructor
      · rintro ⟨i, hi, hx⟩
        exact ⟨(x.2, i), List.mem_zipIdx_iff_getElem?.mpr hi, Prod.ext hx.symm rfl⟩
      · rintro ⟨y, hy, rfl⟩
        exact ⟨y.2, List.mem_zipIdx_iff_getElem?.mp hy, rfl⟩
  have hsnd : (Prod.snd ∘ fun x : B × ℕ => (k + x.2, x.1)) = Prod.fst := rfl
  unfold finish
  rw [hwritten, List.map_map, hsnd, List.zipIdx_map_fst]

end ProgressiveEncoder

/-! ## The choice of the encoder -/

/-- `OpEncoderStrategy`. What `finish` leaves of a builder, `Null`, is used no more. -/
inductive OpEncoderStrategy (A : Type) where
  | ops (data : List (Option (OpId A × Op A)))
  | enc (e : ProgressiveEncoder (OpId A × Op A))

namespace OpEncoderStrategy

/-- `vecEncoderMax` stands for the comparison of the sizes. -/
def new (vecEncoderMax numOps : ℕ) : OpEncoderStrategy A :=
  if vecEncoderMax < numOps then enc (.new numOps) else ops (VecEncoder.new numOps)

def numOps : OpEncoderStrategy A → ℕ
  | ops data => data.length
  | enc e => e.numOps

def add : OpEncoderStrategy A → ℕ × (OpId A × Op A) → Option (OpEncoderStrategy A)
  | ops data, x => (VecEncoder.add data x).map ops
  | enc e, x => some (enc (e.add x))

/-- `start_op` of the change, and its operations. -/
def finish (maxOp : ℕ) (e : OpEncoderStrategy A) :
    Except CollectError (ℕ × List (OpId A × Op A)) := do
  let written ← match e with
    | ops data => VecEncoder.finish maxOp data
    | enc e => .ok e.finish
  return ((written.head?.map fun p => p.1.counter).getD (maxOp + 1), written)

/-- `add`, where no assertion fails. -/
def put : OpEncoderStrategy A → ℕ × (OpId A × Op A) → OpEncoderStrategy A
  | ops data, x => ops (VecEncoder.put data x)
  | enc e, x => enc (e.add x)

variable {vecEncoderMax : ℕ} {xs : List (ℕ × (OpId A × Op A))}

@[simp] theorem numOps_new (n : ℕ) : (new vecEncoderMax n : OpEncoderStrategy A).numOps = n := by
  unfold new
  split
  · rfl
  · exact List.length_replicate ..

@[simp] theorem numOps_put (e : OpEncoderStrategy A) (x : ℕ × (OpId A × Op A)) :
    (e.put x).numOps = e.numOps := by
  cases e with
  | ops data => exact List.length_set ..
  | enc e => exact e.numOps_add x

@[simp] theorem numOps_foldl_put (e : OpEncoderStrategy A) : (xs.foldl put e).numOps = e.numOps := by
  induction xs generalizing e with
  | nil => rfl
  | cons x xs ih => rw [List.foldl_cons, ih, numOps_put]

theorem foldl_put_ops (data : List (Option (OpId A × Op A))) :
    xs.foldl put (ops data) = ops (xs.foldl VecEncoder.put data) := by
  induction xs generalizing data with
  | nil => rfl
  | cons x xs ih => exact ih _

theorem foldl_put_enc (e : ProgressiveEncoder (OpId A × Op A)) :
    xs.foldl put (enc e) = enc (xs.foldl ProgressiveEncoder.add e) := by
  induction xs generalizing e with
  | nil => rfl
  | cons x xs ih => exact ih _

theorem add_foldl_put {n : ℕ} {x : ℕ × (OpId A × Op A)} (hlt : x.1 < n) (hx : x.1 ∉ xs.map Prod.fst) :
    (xs.foldl put (new vecEncoderMax n)).add x = some ((xs ++ [x]).foldl put (new vecEncoderMax n)) := by
  unfold new
  split
  · rw [List.foldl_append, foldl_put_enc]
    rfl
  · rw [foldl_put_ops, foldl_put_ops, add, VecEncoder.add_foldl_put hlt hx]
    rfl

/-- **An encoder ends with the operations that it got**, in their order. -/
theorem finish_foldl {k maxOp : ℕ} {ops : List (OpId A × Op A)} (hne : ops ≠ [])
    (hnd : (xs.map Prod.fst).Nodup)
    (hmem : ∀ x, x ∈ xs ↔ ∃ i, ops[i]? = some x.2 ∧ x.1 = k + i)
    (hlast : ∀ last ∈ ops.getLast?, last.1.counter = maxOp) :
    (xs.foldl put (new vecEncoderMax (k + ops.length))).finish maxOp =
      .ok ((ops.head?.map fun p => p.1.counter).getD (maxOp + 1), ops) := by
  unfold new
  split
  · rw [foldl_put_enc]
    unfold finish
    dsimp only
    rw [ProgressiveEncoder.finish_foldl hnd hmem]
    rfl
  · rw [foldl_put_ops, VecEncoder.foldl_put_new hnd hmem]
    unfold finish
    dsimp only
    rw [VecEncoder.finish_append hne hlast]
    rfl

end OpEncoderStrategy

end AutomergeR
