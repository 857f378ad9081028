import Mathlib.Tactic

/-!
# `queue.c`

A ring buffer of the last `count` values.  The fields that the C code keeps in
step are kept in step by the type: as long as the buffer is not full, `next` is
the number of values in use.  `values` is not initialised by `queue_new`, and
only its first `used` cells are ever read.
-/

namespace MeDiE.Eacl

/-- `struct queue`. -/
structure Queue (count : Nat) where
  values : Fin count → Nat
  used : Nat
  next : Fin count
  used_le : used ≤ count
  next_eq : used < count → next = used

namespace Queue

variable {count : Nat}

/-- `queue_new`. -/
def queueNew [NeZero count] : Queue count where
  values _ := 0
  used := 0
  next := 0
  used_le := Nat.zero_le count
  next_eq _ := by simp

/-- `queue_put`. -/
def queuePut (queue : Queue count) (value : Nat) : Queue count where
  values := Function.update queue.values queue.next value
  used := if queue.used < count then queue.used + 1 else queue.used
  next :=
    if h : queue.next = count - 1
    then ⟨0, Nat.zero_lt_of_lt queue.next.isLt⟩
    else ⟨queue.next + 1, by omega⟩
  used_le := by
    have h := queue.used_le
    split <;> omega
  next_eq := by
    have h := queue.next_eq
    split
    · rename_i hlt
      intro hused
      have hne : (queue.next : Nat) ≠ count - 1 := by omega
      rw [dif_neg hne]
      show (queue.next : Nat) + 1 = queue.used + 1
      rw [h hlt]
    · intro hused
      contradiction

/-- The cells `queue_mean` reads. -/
def cells (queue : Queue count) : List (Fin count) :=
  (List.finRange count).take queue.used

/-- The sum of these cells. -/
def sum (queue : Queue count) : Nat := (queue.cells.map queue.values).sum

/-- `queue_mean`, which sums in `uint64_t`. -/
def queueMean (queue : Queue count) : Nat :=
  if queue.used = 0 then 0 else queue.sum % 2 ^ 64 / queue.used

/-- `queue_reset`. -/
def queueReset (queue : Queue count) : Queue count where
  values i := if i < queue.used then 0 else queue.values i
  used := 0
  next := ⟨0, Nat.zero_lt_of_lt queue.next.isLt⟩
  used_le := Nat.zero_le count
  next_eq _ := rfl

theorem sum_queueReset (queue : Queue count) : queue.queueReset.sum = 0 := by
  simp [sum, cells, queueReset]

/-- Overwriting a cell that is not read leaves the sum. -/
private theorem sum_update_of_notMem (values : Fin count → Nat) {i : Fin count} (value : Nat)
    {l : List (Fin count)} (hi : i ∉ l) :
    (l.map (Function.update values i value)).sum = (l.map values).sum := by
  congr 1
  apply List.map_congr_left
  intro k hk
  have hne : k ≠ i := fun heq => hi (heq ▸ hk)
  exact Function.update_of_ne hne _ _

/-- Overwriting a cell that is read exchanges the old value for the new one. -/
private theorem sum_update_of_mem (values : Fin count → Nat) {i : Fin count} (value : Nat)
    {l : List (Fin count)} (hl : l.Nodup) (hi : i ∈ l) :
    (l.map (Function.update values i value)).sum + values i = (l.map values).sum + value := by
  induction l with
  | nil => simp at hi
  | cons j l ih =>
      rw [List.nodup_cons] at hl
      simp only [List.map_cons, List.sum_cons]
      by_cases hj : i = j
      · subst hj
        rw [sum_update_of_notMem values value hl.1, Function.update_self]
        omega
      · have hmem : i ∈ l := by simpa [hj] using hi
        have hsum := ih hl.2 hmem
        rw [Function.update_of_ne (fun h => hj h.symm)]
        omega

theorem nodup_cells (queue : Queue count) : queue.cells.Nodup :=
  (List.nodup_finRange count).sublist (List.take_sublist _ _)

/-- A buffer that is not full reads one more cell after a `queue_put`. -/
theorem sum_queuePut_of_lt {queue : Queue count} (value : Nat) (hused : queue.used < count) :
    (queue.queuePut value).sum = queue.sum + value := by
  have hcells : (queue.queuePut value).cells = queue.cells ++ [queue.next] := by
    have hlen : queue.used < (List.finRange count).length := by simpa using hused
    have hget : (List.finRange count)[queue.used] = queue.next := by
      apply Fin.ext
      simp [queue.next_eq hused]
    simp [cells, queuePut, hused, List.take_add_one, hget]
  have hnext : queue.next ∉ queue.cells := by
    intro hmem
    obtain ⟨i, hi, heq⟩ := List.getElem_of_mem hmem
    have hi' : i < queue.used := by
      rw [cells, List.length_take] at hi
      omega
    have hval : (queue.next : Nat) = i := by
      rw [← heq]
      simp [cells]
    have h := queue.next_eq hused
    omega
  rw [sum, hcells]
  show ((queue.cells ++ [queue.next]).map
    (Function.update queue.values queue.next value)).sum = _
  rw [List.map_append, List.sum_append, sum_update_of_notMem queue.values value hnext]
  simp [sum]

/-- A full buffer loses the cell that the new value overwrites. -/
theorem sum_queuePut_of_full {queue : Queue count} (value : Nat) (hused : queue.used = count) :
    (queue.queuePut value).sum + queue.values queue.next = queue.sum + value := by
  have hnot : ¬ queue.used < count := by omega
  have hcells : (queue.queuePut value).cells = queue.cells := by
    simp [cells, queuePut, hnot]
  have hnext : queue.next ∈ queue.cells := by
    rw [cells, hused, List.take_of_length_le (by simp)]
    exact List.mem_finRange _
  rw [sum, hcells]
  exact sum_update_of_mem queue.values value queue.nodup_cells hnext

/-- The mean does not exceed a bound on the values. -/
theorem queueMean_lt {queue : Queue count} {bound : Nat} (hpos : 0 < bound)
    (h : ∀ i, queue.values i < bound) : queue.queueMean < bound := by
  unfold queueMean
  split
  · exact hpos
  · rename_i hused
    have hlen : (queue.cells.map queue.values).length = queue.used := by
      simpa [cells] using queue.used_le
    have hsum : queue.sum ≤ queue.used * (bound - 1) := by
      rw [← hlen]
      apply List.sum_le_card_nsmul
      intro value hvalue
      obtain ⟨i, _, rfl⟩ := List.mem_map.mp hvalue
      have hi := h i
      omega
    calc queue.sum % 2 ^ 64 / queue.used
        ≤ queue.used * (bound - 1) / queue.used :=
          Nat.div_le_div_right ((Nat.mod_le _ _).trans hsum)
      _ = bound - 1 := Nat.mul_div_cancel_left _ (Nat.pos_of_ne_zero hused)
      _ < bound := by omega

/-! ## The last values -/

/-- The cell of the value that was put `age` values before the last one. -/
def slot (queue : Queue count) (age : Nat) : Fin count :=
  ⟨(queue.next + (count - 1 - age)) % count,
    Nat.mod_lt _ (Nat.zero_lt_of_lt queue.next.isLt)⟩

/-- `put`, newest first, is what has been put into the buffer since it was empty: the
buffer keeps the last `count` of these values. -/
structure Keeps (queue : Queue count) (put : List Nat) : Prop where
  used_eq : queue.used = min count put.length
  value : ∀ age, age < count → ∀ h : age < put.length, queue.values (queue.slot age) = put[age]
  sum_eq : queue.sum = (put.take count).sum

theorem keeps_queueNew [NeZero count] : (queueNew : Queue count).Keeps [] where
  used_eq := by simp [queueNew]
  value := by simp
  sum_eq := by simp [sum, cells, queueNew]

theorem keeps_queueReset (queue : Queue count) : queue.queueReset.Keeps [] where
  used_eq := by simp [queueReset]
  value := by simp
  sum_eq := by simp [sum_queueReset]

theorem next_queuePut (queue : Queue count) (value : Nat) :
    ((queue.queuePut value).next : Nat) = (queue.next + 1) % count := by
  have hlt := queue.next.isLt
  show ((if h : (queue.next : Nat) = count - 1 then _ else _ : Fin count) : Nat) = _
  split
  · rename_i heq
    have hsucc : (queue.next : Nat) + 1 = count := by omega
    rw [hsucc, Nat.mod_self]
  · exact (Nat.mod_eq_of_lt (by omega)).symm

theorem slot_queuePut_zero (queue : Queue count) (value : Nat) :
    (queue.queuePut value).slot 0 = queue.next := by
  have hlt := queue.next.isLt
  apply Fin.ext
  show (((queue.queuePut value).next : Nat) + (count - 1 - 0)) % count = queue.next
  have hturn : (queue.next : Nat) + 1 + (count - 1 - 0) = queue.next + count := by omega
  rw [next_queuePut, Nat.mod_add_mod, hturn, Nat.add_mod_right, Nat.mod_eq_of_lt hlt]

theorem slot_queuePut_succ (queue : Queue count) (value : Nat) {age : Nat}
    (hage : age + 1 < count) : (queue.queuePut value).slot (age + 1) = queue.slot age := by
  apply Fin.ext
  show (((queue.queuePut value).next : Nat) + (count - 1 - (age + 1))) % count =
    (queue.next + (count - 1 - age)) % count
  have hsame : (queue.next : Nat) + 1 + (count - 1 - (age + 1)) =
      queue.next + (count - 1 - age) := by omega
  rw [next_queuePut, Nat.mod_add_mod, hsame]

/-- Only the value of age `count - 1` is in the cell that is written next. -/
theorem slot_ne_next (queue : Queue count) {age : Nat} (hage : age + 1 < count) :
    queue.slot age ≠ queue.next := by
  intro heq
  have hval : ((queue.next : Nat) + (count - 1 - age)) % count = queue.next :=
    congrArg Fin.val heq
  have hlt := queue.next.isLt
  by_cases hwrap : (queue.next : Nat) + (count - 1 - age) < count
  · rw [Nat.mod_eq_of_lt hwrap] at hval
    omega
  · rw [Nat.mod_eq_sub_mod (Nat.le_of_not_lt hwrap), Nat.mod_eq_of_lt (by omega)] at hval
    omega

theorem slot_last (queue : Queue count) : queue.slot (count - 1) = queue.next := by
  have hlt := queue.next.isLt
  apply Fin.ext
  show ((queue.next : Nat) + (count - 1 - (count - 1))) % count = queue.next
  rw [Nat.sub_self, Nat.add_zero, Nat.mod_eq_of_lt hlt]

theorem Keeps.queuePut {queue : Queue count} {put : List Nat} (h : queue.Keeps put)
    (value : Nat) : (queue.queuePut value).Keeps (value :: put) := by
  have hpos : 0 < count := Nat.zero_lt_of_lt queue.next.isLt
  have hused := h.used_eq
  refine ⟨?_, ?_, ?_⟩
  · show (if queue.used < count then queue.used + 1 else queue.used) = _
    rw [List.length_cons]
    split <;> omega
  · intro age hage hlen
    show Function.update queue.values queue.next value ((queue.queuePut value).slot age) = _
    cases age with
    | zero => rw [slot_queuePut_zero, Function.update_self, List.getElem_cons_zero]
    | succ age =>
        rw [slot_queuePut_succ queue value hage,
          Function.update_of_ne (queue.slot_ne_next hage), List.getElem_cons_succ]
        exact h.value age (by omega) _
  · obtain ⟨last, rfl⟩ : ∃ last, count = last + 1 := ⟨count - 1, by omega⟩
    rw [List.take_succ_cons, List.sum_cons]
    by_cases hfull : queue.used < last + 1
    · rw [sum_queuePut_of_lt value hfull, h.sum_eq, List.take_of_length_le (by omega),
        List.take_of_length_le (by omega), Nat.add_comm]
    · -- the cell that is overwritten holds the oldest value of the window
      have hlen : last < put.length := by omega
      have hold : queue.values queue.next = put[last] := by
        rw [← queue.slot_last]
        exact h.value last (by omega) hlen
      have hsum : (queue.queuePut value).sum + _ = _ :=
        sum_queuePut_of_full value (by omega)
      rw [hold, h.sum_eq, List.take_succ_eq_append_getElem hlen, List.sum_append,
        List.sum_singleton] at hsum
      omega

/-- The mean is that of the last `count` values. -/
theorem Keeps.queueMean {queue : Queue count} {put : List Nat} (h : queue.Keeps put) :
    queue.queueMean = (put.take count).sum % 2 ^ 64 / (put.take count).length := by
  unfold Queue.queueMean
  rw [h.sum_eq, List.length_take, ← h.used_eq]
  split
  · rename_i hzero
    rw [hzero, Nat.div_zero]
  · rfl

end Queue

end MeDiE.Eacl
