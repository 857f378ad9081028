import Mathlib.Tactic

/-!
# Removing from an array by moving the last element into the gap

`a[i] = a[size - 1]; size--;` on an array that a loop is traversing.  The
positions behind `i` lose their last element and nothing else, so a loop that
goes on at `i + 1` never reaches the element that was moved to `i`.
-/

namespace MeDiE.Verified.SwapRemove

variable {α : Type}

/-- Overwrite position `i` with the last element and drop the last position. -/
def swapRemove (l : List α) (i : Nat) : List α :=
  match l.getLast? with
  | some x => (l.set i x).dropLast
  | none => []

theorem mem_of_mem_swapRemove {l : List α} {i : Nat} {a : α}
    (h : a ∈ swapRemove l i) : a ∈ l := by
  unfold swapRemove at h
  split at h
  · rename_i x hx
    rcases List.mem_or_eq_of_mem_set (List.dropLast_subset _ h) with h | h
    · exact h
    · exact h ▸ List.mem_of_getLast? hx
  · simp at h

theorem length_swapRemove (l : List α) (i : Nat) :
    (swapRemove l i).length = l.length - 1 := by
  unfold swapRemove
  split
  · simp
  · rename_i h
    simp [List.getLast?_eq_none_iff.mp h]

theorem swapRemove_map {β : Type} (f : α → β) (l : List α) (i : Nat) :
    swapRemove (l.map f) i = (swapRemove l i).map f := by
  unfold swapRemove
  rw [List.getLast?_map]
  cases l.getLast? with
  | none => rfl
  | some x => simp only [Option.map_some, ← List.map_set, List.map_dropLast]

/-- Behind the gap only the last element is gone. -/
theorem drop_swapRemove (l : List α) (i : Nat) :
    (swapRemove l i).drop (i + 1) = (l.drop (i + 1)).dropLast := by
  unfold swapRemove
  split
  · rw [List.dropLast_eq_take, List.dropLast_eq_take, List.drop_take,
      List.length_set, List.drop_set_of_lt (by omega), List.length_drop]
    congr 1
    omega
  · rename_i h
    simp [List.getLast?_eq_none_iff.mp h]

/-- Apart from the order only the element at the gap is gone. -/
theorem swapRemove_perm (l : List α) {i : Nat} (hi : i < l.length) :
    (swapRemove l i).Perm (l.eraseIdx i) := by
  unfold swapRemove
  split
  · rename_i x hx
    have hlast : (l.set i x).getLast? = some x := by
      rw [List.getLast?_eq_getElem?, List.length_set, List.getElem?_set,
        ← List.getLast?_eq_getElem?, hx]
      split <;> rfl
    have hset : (l.set i x).Perm (x :: l.eraseIdx i) := List.set_perm_cons_eraseIdx hi x
    rw [← List.dropLast_append_getLast? x hlast] at hset
    exact (List.perm_append_singleton x _).symm.trans hset |>.cons_inv
  · rename_i h
    simp [List.getLast?_eq_none_iff.mp h]

end MeDiE.Verified.SwapRemove
