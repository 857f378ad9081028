import Mathlib.Tactic
import Mathlib.Algebra.Order.BigOperators.Group.List

/-!
# Greedy selection from a list in decreasing order of value

`greedyTake val room l` walks along `l` and takes every element whose value
still fits in what is left of `room`; it stops at the first element of value
zero that it meets while one fits.  On a list in decreasing order the result
cannot be extended: whatever was left out has value zero or is larger than the
room that is left at the end.
-/

namespace MeDiE.Verified.Greedy

variable {α : Type}

/-- The elements taken, in list order. -/
def greedyTake (val : α → Nat) : Nat → List α → List α
  | _, [] => []
  | room, a :: l =>
      if val a ≤ room then
        if val a = 0 then [] else a :: greedyTake val (room - val a) l
      else greedyTake val room l

/-- Total value of a list of elements. -/
def total (val : α → Nat) (l : List α) : Nat := (l.map val).sum

@[simp] theorem total_nil (val : α → Nat) : total val [] = 0 := rfl

@[simp] theorem total_cons (val : α → Nat) (a : α) (l : List α) :
    total val (a :: l) = val a + total val l := by
  simp [total]

@[simp] theorem total_append (val : α → Nat) (l l' : List α) :
    total val (l ++ l') = total val l + total val l' := by
  simp [total]

theorem le_total (val : α → Nat) {l : List α} {a : α} (h : a ∈ l) :
    val a ≤ total val l :=
  List.single_le_sum (by simp) _ (List.mem_map_of_mem h)

theorem greedyTake_sublist (val : α → Nat) (room : Nat) (l : List α) :
    (greedyTake val room l).Sublist l := by
  induction room, l using greedyTake.induct val with
  | case1 room => exact List.Sublist.refl _
  | case2 room a l hfit hzero => simp [greedyTake, hzero]
  | case3 room a l hfit hzero ih =>
      rw [greedyTake, if_pos hfit, if_neg hzero]
      exact ih.cons_cons a
  | case4 room a l hfit ih =>
      rw [greedyTake, if_neg hfit]
      exact ih.cons a

theorem total_greedyTake_le (val : α → Nat) (room : Nat) (l : List α) :
    total val (greedyTake val room l) ≤ room := by
  induction room, l using greedyTake.induct val with
  | case1 room => exact Nat.zero_le _
  | case2 room a l hfit hzero => simp [greedyTake, hzero]
  | case3 room a l hfit hzero ih =>
      rw [greedyTake, if_pos hfit, if_neg hzero, total_cons]
      omega
  | case4 room a l hfit ih => rwa [greedyTake, if_neg hfit]

theorem greedyTake_ne_zero (val : α → Nat) (room : Nat) (l : List α) :
    ∀ a ∈ greedyTake val room l, val a ≠ 0 := by
  induction room, l using greedyTake.induct val with
  | case1 room => simp [greedyTake]
  | case2 room a l hfit hzero => simp [greedyTake, hzero]
  | case3 room a l hfit hzero ih =>
      rw [greedyTake, if_pos hfit, if_neg hzero]
      intro x hx
      rcases List.mem_cons.mp hx with rfl | hx
      · exact hzero
      · exact ih x hx
  | case4 room a l hfit ih => rwa [greedyTake, if_neg hfit]

/-- What is left out of a list in decreasing order has value zero or no longer
fits in the room left at the end. -/
theorem greedyTake_maximal (val : α → Nat) (room : Nat) (l : List α)
    (hdesc : l.Pairwise (fun a b => val b ≤ val a)) :
    ∀ a ∈ l, a ∉ greedyTake val room l →
      val a = 0 ∨ room < total val (greedyTake val room l) + val a := by
  induction room, l using greedyTake.induct val with
  | case1 room => simp
  | case2 room a l hfit hzero =>
      intro x hx _
      rcases List.mem_cons.mp hx with rfl | hx
      · exact Or.inl hzero
      · have hle := List.rel_of_pairwise_cons hdesc hx
        exact Or.inl (by omega)
  | case3 room a l hfit hzero ih =>
      rw [greedyTake, if_pos hfit, if_neg hzero]
      intro x hx hnot
      rw [List.mem_cons, not_or] at hnot
      have hxl : x ∈ l := (List.mem_cons.mp hx).resolve_left hnot.1
      rcases ih (List.Pairwise.of_cons hdesc) x hxl hnot.2 with h | h
      · exact Or.inl h
      · exact Or.inr (by rw [total_cons]; omega)
  | case4 room a l hfit ih =>
      rw [greedyTake, if_neg hfit]
      intro x hx hnot
      rcases List.mem_cons.mp hx with rfl | hx
      · exact Or.inr (by omega)
      · exact ih (List.Pairwise.of_cons hdesc) x hx hnot

end MeDiE.Verified.Greedy
