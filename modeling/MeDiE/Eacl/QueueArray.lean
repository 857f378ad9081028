import MeDiE.Eacl.Queue
import MeDiE.Verified.Cells

/-!
# `queue.c` on its array

The same functions with the array they write: `queue_new` leaves it uninitialised, and
nothing ties `used` and `next` to `count`.  `none` is an access outside of `values`, a read
of a cell that was never written, or the overflow of the `int` of `queue_reset`.  Every
sequence of calls stays clear of these and refines the buffer of `MeDiE.Eacl.Queue`.
-/

namespace MeDiE.Eacl

open MeDiE.Verified.Cells

/-- `struct queue`. -/
structure QueueArray where
  count : Nat
  used : Nat
  next : Nat
  values : List (Option UInt32)

/-- A call on a queue. -/
inductive QueueCall where
  | put (value : UInt32)
  | reset

namespace QueueArray

/-- `queue_new`. -/
def queueNew (count : Nat) : QueueArray where
  count := count
  used := 0
  next := 0
  values := List.replicate count none

/-- `queue_put`. -/
def queuePut (queue : QueueArray) (value : UInt32) : Option QueueArray := do
  let values ← writeCell queue.values queue.next (some value)
  some { queue with
    values := values
    used := if queue.used < queue.count then queue.used + 1 else queue.used
    next := if queue.next = queue.count - 1 then 0 else queue.next + 1 }

/-- The loop of `queue_mean`, with the number of rounds that are left. -/
def sumFrom (values : List (Option UInt32)) : Nat → Nat → Nat → Option Nat
  | 0, _, sum => some sum
  | rounds + 1, i, sum => do
      let value ← readCell values i
      sumFrom values rounds (i + 1) ((sum + (← value).toNat) % 2 ^ 64)

/-- `queue_mean`, which sums in `uint64_t` and returns a `uint32_t`. -/
def queueMean (queue : QueueArray) : Option Nat :=
  if queue.used = 0 then some 0
  else do
    let sum ← sumFrom queue.values queue.used 0 0
    some (sum / queue.used % 2 ^ 32)

/-- The loop of `queue_reset`, whose index is an `int`. -/
def clearFrom : Nat → Nat → List (Option UInt32) → Option (List (Option UInt32))
  | 0, _, values => some values
  | rounds + 1, i, values => do
      let values ← writeCell values i (some 0)
      if i + 1 < 2 ^ 31 then clearFrom rounds (i + 1) values else none

/-- `queue_reset`. -/
def queueReset (queue : QueueArray) : Option QueueArray := do
  let values ← clearFrom queue.used 0 queue.values
  some { queue with values := values, used := 0, next := 0 }

/-- One call. -/
def call (queue : QueueArray) : QueueCall → Option QueueArray
  | .put value => queue.queuePut value
  | .reset => queue.queueReset

/-- A sequence of calls. -/
def run (queue : QueueArray) (calls : List QueueCall) : Option QueueArray :=
  calls.foldlM call queue

/-! ## Refinement of the buffer -/

/-- The array holds the buffer: the cells that are read have been written. -/
structure Refines {count : Nat} (array : QueueArray) (queue : Queue count) : Prop where
  count_eq : array.count = count
  used_eq : array.used = queue.used
  next_eq : array.next = queue.next
  length_eq : array.values.length = count
  value : ∀ i : Fin count, i < queue.used →
    array.values[(i : Nat)]? = some (some (UInt32.ofNat (queue.values i)))
  small : ∀ i, queue.values i < 2 ^ 32

theorem refines_queueNew (count : Nat) [NeZero count] :
    (queueNew count).Refines (Queue.queueNew : Queue count) where
  count_eq := rfl
  used_eq := rfl
  next_eq := rfl
  length_eq := List.length_replicate
  value i hi := absurd hi (Nat.not_lt_zero i)
  small i := show 0 < 2 ^ 32 by norm_num

theorem Refines.queuePut {count : Nat} {array : QueueArray} {queue : Queue count}
    (h : array.Refines queue) (value : UInt32) :
    ∃ array', array.queuePut value = some array' ∧
      array'.Refines (queue.queuePut value.toNat) := by
  have hnext : array.next < array.values.length := by
    rw [h.next_eq, h.length_eq]
    exact queue.next.isLt
  refine ⟨_, by rw [QueueArray.queuePut, writeCell_natCast hnext]; rfl, ?_⟩
  refine ⟨h.count_eq, ?_, ?_, ?_, ?_, ?_⟩
  · simp only [Queue.queuePut, h.used_eq, h.count_eq]
  · simp only [Queue.queuePut, h.next_eq, h.count_eq]
    split <;> rfl
  · simpa using h.length_eq
  · intro i hi
    simp only [Queue.queuePut] at hi ⊢
    by_cases heq : i = queue.next
    · rw [heq, Function.update_self, ← h.next_eq, List.getElem?_set_self hnext,
        UInt32.ofNat_toNat]
    · have hne : (i : Nat) ≠ queue.next := fun hval => heq (Fin.ext hval)
      have hused : (i : Nat) < queue.used := by
        have hle := queue.used_le
        have hfirst := queue.next_eq
        split at hi <;> omega
      rw [Function.update_of_ne heq, h.next_eq, List.getElem?_set_ne (Ne.symm hne),
        h.value i hused]
  · intro i
    simp only [Queue.queuePut]
    by_cases heq : i = queue.next
    · rw [heq, Function.update_self]
      exact value.toNat_lt
    · rw [Function.update_of_ne heq]
      exact h.small i

/-- The loop of `queue_reset` writes the cells that are in use. -/
theorem clearFrom_eq_some (rounds i : Nat) (values : List (Option UInt32))
    (hlen : i + rounds ≤ values.length) (hint : i + rounds < 2 ^ 31) :
    ∃ values', clearFrom rounds i values = some values' ∧
      values'.length = values.length := by
  induction rounds generalizing i values with
  | zero => exact ⟨values, rfl, rfl⟩
  | succ rounds ih =>
      obtain ⟨values', hclear, hsame⟩ :=
        ih (i + 1) (values.set i (some 0)) (by simp; omega) (by omega)
      refine ⟨values', ?_, by simpa using hsame⟩
      rw [clearFrom, writeCell_natCast (by omega)]
      simp only [Option.bind_eq_bind, Option.bind_some, if_pos (show i + 1 < 2 ^ 31 by omega)]
      exact hclear

theorem Refines.queueReset {count : Nat} {array : QueueArray} {queue : Queue count}
    (h : array.Refines queue) (hint : count < 2 ^ 31) :
    ∃ array', array.queueReset = some array' ∧ array'.Refines queue.queueReset := by
  have hused := queue.used_le
  have hlen := h.length_eq
  have huse := h.used_eq
  obtain ⟨values, hclear, hsame⟩ :=
    clearFrom_eq_some array.used 0 array.values (by omega) (by omega)
  refine ⟨_, by rw [QueueArray.queueReset, hclear]; rfl, ?_⟩
  exact {
    count_eq := h.count_eq
    used_eq := rfl
    next_eq := rfl
    length_eq := hsame.trans hlen
    value := fun i hi => absurd hi (Nat.not_lt_zero i)
    small := fun i => by
      have hi := h.small i
      simp only [Queue.queueReset]
      split <;> omega }

/-- The loop of `queue_mean` adds up the cells it reads, as long as they are written. -/
theorem sumFrom_eq_some (values : List (Option UInt32)) (summands : List UInt32) (i sum : Nat)
    (hread : ∀ j (hj : j < summands.length), values[i + j]? = some (some summands[j]))
    (hsum : sum < 2 ^ 64) :
    sumFrom values summands.length i sum =
      some ((sum + (summands.map UInt32.toNat).sum) % 2 ^ 64) := by
  induction summands generalizing i sum with
  | nil => exact congrArg some (Nat.mod_eq_of_lt hsum).symm
  | cons value summands ih =>
      have hhead : values[i]? = some (some value) := hread 0 (by simp)
      have htail := ih (i + 1) ((sum + value.toNat) % 2 ^ 64)
        (fun j hj => by
          have h := hread (j + 1) (by simpa using hj)
          rwa [show i + (j + 1) = i + 1 + j by omega, List.getElem_cons_succ] at h)
        (Nat.mod_lt _ (by norm_num))
      rw [List.length_cons, sumFrom, readCell_natCast, hhead]
      simp only [Option.bind_eq_bind, Option.bind_some, htail, List.map_cons, List.sum_cons]
      rw [Nat.mod_add_mod, Nat.add_assoc]

theorem Refines.queueMean {count : Nat} {array : QueueArray} {queue : Queue count}
    (h : array.Refines queue) : array.queueMean = some queue.queueMean := by
  have hmean := Queue.queueMean_lt (by norm_num) h.small
  unfold Queue.queueMean at hmean
  unfold QueueArray.queueMean Queue.queueMean
  rw [h.used_eq]
  split
  · rfl
  · rename_i hused
    rw [if_neg hused] at hmean
    have hlen : (queue.cells.map fun i => UInt32.ofNat (queue.values i)).length =
        queue.used := by
      simpa [Queue.cells] using queue.used_le
    have hsum := sumFrom_eq_some array.values
      (queue.cells.map fun i => UInt32.ofNat (queue.values i)) 0 0
      (fun j hj => by
        have hj' : j < queue.cells.length := by simpa using hj
        have hcell : (queue.cells[j] : Nat) = j := by simp [Queue.cells]
        have hvalue := h.value queue.cells[j] (by omega)
        rw [hcell] at hvalue
        rwa [Nat.zero_add, List.getElem_map])
      (by norm_num)
    have htoNat : (queue.cells.map fun i => UInt32.ofNat (queue.values i)).map UInt32.toNat =
        queue.cells.map queue.values := by
      rw [List.map_map]
      exact List.map_congr_left fun i _ => UInt32.toNat_ofNat_of_lt' (h.small i)
    rw [hlen, htoNat, Nat.zero_add] at hsum
    rw [hsum]
    exact congrArg some (Nat.mod_eq_of_lt hmean)

/-! ## The mean after a sequence of calls -/

/-- The values put since the last reset, newest first, `put` being those from before. -/
def sinceReset (put : List Nat) : List QueueCall → List Nat
  | [] => put
  | .put value :: calls => sinceReset (value.toNat :: put) calls
  | .reset :: calls => sinceReset [] calls

/-- What is kept of the values that were put: the last `count` of them. -/
def window (count : Nat) (calls : List QueueCall) : List Nat :=
  (sinceReset [] calls).take count

theorem sinceReset_lt (put : List Nat) (hput : ∀ value ∈ put, value < 2 ^ 32)
    (calls : List QueueCall) : ∀ value ∈ sinceReset put calls, value < 2 ^ 32 := by
  induction calls generalizing put with
  | nil => exact hput
  | cons call calls ih =>
      cases call with
      | put value =>
          refine ih (value.toNat :: put) ?_
          rw [List.forall_mem_cons]
          exact ⟨value.toNat_lt, hput⟩
      | reset => exact ih [] (by simp)

/-- Every sequence of calls is carried out, and the buffer keeps what was put. -/
theorem Refines.run {count : Nat} (hint : count < 2 ^ 31) (calls : List QueueCall)
    {array : QueueArray} {queue : Queue count} {put : List Nat}
    (h : array.Refines queue) (hkeeps : queue.Keeps put) :
    ∃ (array' : QueueArray) (queue' : Queue count), array.run calls = some array' ∧
      array'.Refines queue' ∧ queue'.Keeps (sinceReset put calls) := by
  induction calls generalizing array queue put with
  | nil => exact ⟨array, queue, rfl, h, hkeeps⟩
  | cons call calls ih =>
      cases call with
      | put value =>
          obtain ⟨array', hcall, hrefines⟩ := h.queuePut value
          obtain ⟨array'', queue'', hrun, hdone⟩ := ih hrefines (hkeeps.queuePut value.toNat)
          refine ⟨array'', queue'', ?_, hdone⟩
          rw [QueueArray.run, List.foldlM_cons, call, hcall]
          exact hrun
      | reset =>
          obtain ⟨array', hcall, hrefines⟩ := h.queueReset hint
          obtain ⟨array'', queue'', hrun, hdone⟩ := ih hrefines queue.keeps_queueReset
          refine ⟨array'', queue'', ?_, hdone⟩
          rw [QueueArray.run, List.foldlM_cons, call, hcall]
          exact hrun

theorem sum_window_lt {count : Nat} (hint : count < 2 ^ 31) (calls : List QueueCall) :
    (window count calls).sum < 2 ^ 64 := by
  have hsmall := sinceReset_lt [] (by simp) calls
  have hsum : (window count calls).sum ≤ (window count calls).length * (2 ^ 32 - 1) := by
    refine List.sum_le_card_nsmul _ _ fun value hvalue => ?_
    have hlt := hsmall value (List.mem_of_mem_take hvalue)
    omega
  have hlen : (window count calls).length ≤ count := List.length_take_le _ _
  have hmul : (window count calls).length * (2 ^ 32 - 1) ≤ 2 ^ 31 * (2 ^ 32 - 1) :=
    Nat.mul_le_mul_right _ (by omega)
  omega

/-- **The ring buffer keeps the most recent values**: after any puts and resets on a new
queue with at least one place, all of them inside of the array, the mean is that of the
last `count` values since the last reset, and 0 when there is none; their sum fits in 64
bits. -/
theorem queueMean_run (count : Nat) (hpos : 1 ≤ count) (hint : count < 2 ^ 31)
    (calls : List QueueCall) :
    ∃ queue, (queueNew count).run calls = some queue ∧
      (window count calls).sum < 2 ^ 64 ∧
      queue.queueMean = some (if window count calls = [] then 0
        else (window count calls).sum / (window count calls).length) := by
  have : NeZero count := ⟨by omega⟩
  obtain ⟨array, queue, hrun, hrefines, hkeeps⟩ :=
    (refines_queueNew count).run hint calls Queue.keeps_queueNew
  have hsum := sum_window_lt hint calls
  refine ⟨array, hrun, hsum, ?_⟩
  rw [hrefines.queueMean, hkeeps.queueMean]
  change some ((window count calls).sum % 2 ^ 64 / (window count calls).length) = _
  rw [Nat.mod_eq_of_lt hsum]
  split
  · rename_i hempty
    rw [hempty]
    rfl
  · rfl

/-- A queue for two values that has been given four, with a reset after the first. -/
theorem queueMean_run_two :
    ∃ queue, (queueNew 2).run [.put 9, .reset, .put 1, .put 4, .put 7] = some queue ∧
      (window 2 [.put 9, .reset, .put 1, .put 4, .put 7]).sum < 2 ^ 64 ∧
      queue.queueMean = some (if window 2 [.put 9, .reset, .put 1, .put 4, .put 7] = [] then 0
        else (window 2 [.put 9, .reset, .put 1, .put 4, .put 7]).sum /
          (window 2 [.put 9, .reset, .put 1, .put 4, .put 7]).length) :=
  queueMean_run 2 (by decide) (by decide) [.put 9, .reset, .put 1, .put 4, .put 7]

end QueueArray

end MeDiE.Eacl
