import Mathlib.Tactic
import MeDiE.Verified.Greedy

/-!
# Greedy selection and equal values

A greedy selection may run out of room in the middle of a group of equal values.
Whoever looks its elements up again by value then finds the whole group.  This
file counts how many copies of a value are taken from a list in decreasing order,
and says when selecting by value gives back what the selection took.
-/

namespace MeDiE.Verified.Greedy

variable {α : Type}

/-- Without zeros in front the selection goes on with the room that is left. -/
theorem greedyTake_append (val : α → Nat) (room : Nat) (l l' : List α)
    (hne : ∀ a ∈ l, val a ≠ 0) :
    greedyTake val room (l ++ l') = greedyTake val room l ++
      greedyTake val (room - total val (greedyTake val room l)) l' := by
  induction room, l using greedyTake.induct val with
  | case1 room => rw [List.nil_append, greedyTake, total_nil, Nat.sub_zero, List.nil_append]
  | case2 room a l hfit hzero => exact absurd hzero (hne a (by simp))
  | case3 room a l hfit hzero ih =>
      rw [List.cons_append, greedyTake, greedyTake, if_pos hfit, if_pos hfit,
        if_neg hzero, if_neg hzero, List.cons_append, total_cons, ← Nat.sub_sub,
        ih fun x hx => hne x (List.mem_cons_of_mem a hx)]
  | case4 room a l hfit ih =>
      rw [List.cons_append, greedyTake, greedyTake, if_neg hfit, if_neg hfit,
        ih fun x hx => hne x (List.mem_cons_of_mem a hx)]

/-- From a group of equal values as many are taken as there is room for. -/
theorem greedyTake_replicate (room c v : Nat) (hv : v ≠ 0) :
    greedyTake id room (List.replicate c v) =
      List.replicate (min c (room / v)) v := by
  induction c generalizing room with
  | zero => simp [greedyTake]
  | succ c ih =>
      rw [List.replicate_succ, greedyTake, id_eq]
      by_cases hfit : v ≤ room
      · have hdiv : room / v = (room - v) / v + 1 := by
          rw [Nat.div_eq_sub_div (Nat.pos_of_ne_zero hv) hfit]
        rw [if_pos hfit, if_neg hv, ih, hdiv, Nat.succ_min_succ, List.replicate_succ]
      · have hdiv : room / v = 0 := Nat.div_eq_of_lt (by omega)
        rw [if_neg hfit, ih, hdiv, Nat.min_zero, Nat.min_zero]

/-- A list in decreasing order falls into the values above, at and below `v`. -/
theorem descending_split (l : List Nat) (v : Nat)
    (hdesc : l.Pairwise (fun a b => b ≤ a)) :
    l = l.filter (v < ·) ++ (List.replicate (l.count v) v ++ l.filter (· < v)) := by
  induction l with
  | nil => rfl
  | cons a l ih =>
      rw [List.pairwise_cons] at hdesc
      have ih := ih hdesc.2
      rcases Nat.lt_trichotomy a v with hlt | heq | hgt
      · -- everything from here on is below `v`
        have habove : (a :: l).filter (v < ·) = [] := by
          refine List.filter_eq_nil_iff.mpr fun x hx => ?_
          rcases List.mem_cons.mp hx with rfl | hx
          · simp [hlt.le]
          · have hle := hdesc.1 x hx
            simp only [decide_eq_true_eq]
            omega
        have hcount : (a :: l).count v = 0 := by
          refine List.count_eq_zero.mpr fun hmem => ?_
          rcases List.mem_cons.mp hmem with rfl | hmem
          · omega
          · have hle := hdesc.1 v hmem
            omega
        have hbelow : (a :: l).filter (· < v) = a :: l := by
          refine List.filter_eq_self.mpr fun x hx => ?_
          rcases List.mem_cons.mp hx with rfl | hx
          · simpa using hlt
          · have hle := hdesc.1 x hx
            simp only [decide_eq_true_eq]
            omega
        rw [habove, hcount, hbelow]
        rfl
      · subst heq
        have habove : l.filter (a < ·) = [] := by
          refine List.filter_eq_nil_iff.mpr fun x hx => ?_
          have hle := hdesc.1 x hx
          simpa using hle
        rw [List.filter_cons_of_neg (by simp), List.filter_cons_of_neg (by simp), habove,
          List.count_cons_self, List.replicate_succ, List.nil_append, List.cons_append]
        rw [habove, List.nil_append] at ih
        exact congrArg (a :: ·) ih
      · rw [List.filter_cons_of_pos (by simpa using hgt),
          List.filter_cons_of_neg (by simp; omega), List.count_cons_of_ne (by omega),
          List.cons_append]
        exact congrArg (a :: ·) ih

/-- The room left for the value `v` after the larger values. -/
def roomFor (room : Nat) (l : List Nat) (v : Nat) : Nat :=
  room - total id (greedyTake id room (l.filter (v < ·)))

theorem count_greedyTake (room : Nat) (l : List Nat) (v : Nat) (hv : v ≠ 0)
    (hdesc : l.Pairwise (fun a b => b ≤ a)) :
    (greedyTake id room l).count v = min (l.count v) (roomFor room l v / v) := by
  have habove : ∀ a ∈ l.filter (v < ·), id a ≠ 0 := by
    intro a ha
    have hlt := (List.mem_filter.mp ha).2
    simp only [decide_eq_true_eq] at hlt
    exact Nat.ne_zero_of_lt hlt
  have hequal : ∀ a ∈ List.replicate (l.count v) v, id a ≠ 0 := by
    intro a ha
    rw [List.eq_of_mem_replicate ha]
    exact hv
  have hnone : ∀ (room : Nat) (l' : List Nat), (∀ a ∈ l', a ≠ v) →
      (greedyTake id room l').count v = 0 := by
    intro room l' hl'
    refine List.count_eq_zero.mpr fun hmem => ?_
    exact hl' v ((greedyTake_sublist id room l').subset hmem) rfl
  conv_lhs => rw [descending_split l v hdesc]
  rw [greedyTake_append id _ _ _ habove, greedyTake_append id _ _ _ hequal,
    greedyTake_replicate _ _ _ hv, List.count_append, List.count_append,
    List.count_replicate_self, hnone _ _ (by simp; omega), hnone _ _ (by simp; omega)]
  unfold roomFor
  omega

/-- A part with the same sum as the whole is the whole, when nothing is zero. -/
theorem sublist_eq_of_sum_eq {l l' : List Nat} (hsub : l.Sublist l')
    (hne : ∀ a ∈ l', a ≠ 0) (hsum : l.sum = l'.sum) : l = l' := by
  induction hsub with
  | slnil => rfl
  | cons a hsub ih =>
      rename_i l l'
      have hle : l.sum ≤ l'.sum := hsub.sum_le_sum fun _ _ => Nat.zero_le _
      have ha := hne a (by simp)
      rw [List.sum_cons] at hsum
      omega
  | cons_cons a hsub ih =>
      rw [List.sum_cons, List.sum_cons] at hsum
      rw [ih (fun x hx => hne x (List.mem_cons_of_mem a hx)) (by omega)]

/-- Selecting by value gives back what was taken exactly when the room does not
run out in the middle of a group of equal values. -/
theorem sum_filter_mem_greedyTake_iff (room : Nat) (l : List Nat)
    (hdesc : l.Pairwise (fun a b => b ≤ a)) :
    (l.filter (· ∈ greedyTake id room l)).sum = (greedyTake id room l).sum ↔
      ∀ v ∈ l, v ≠ 0 → roomFor room l v < v ∨ l.count v * v ≤ roomFor room l v := by
  have hne : ∀ v ∈ greedyTake id room l, v ≠ 0 := greedyTake_ne_zero id room l
  have hcount := fun v hv => count_greedyTake room l v hv hdesc
  generalize hset : greedyTake id room l = set at hne hcount ⊢
  have hsub : set.Sublist (l.filter (· ∈ set)) := by
    have h := (greedyTake_sublist id room l).filter (· ∈ set)
    rw [hset, List.filter_eq_self.mpr (by simp)] at h
    exact h
  constructor
  · intro hsum v hv hv0
    have heq := sublist_eq_of_sum_eq hsub
      (fun a ha => hne a (by simpa using (List.mem_filter.mp ha).2)) hsum.symm
    have hc := hcount v hv0
    have hpos : 0 < v := Nat.pos_of_ne_zero hv0
    by_cases hmem : v ∈ set
    · have hall : set.count v = l.count v := by
        rw [heq, List.count_filter (by simpa [← heq] using hmem)]
      refine Or.inr ((Nat.le_div_iff_mul_le hpos).mp ?_)
      omega
    · have hzero : set.count v = 0 := List.count_eq_zero.mpr hmem
      have hin : 0 < l.count v := List.count_pos_iff.mpr hv
      refine Or.inl ((Nat.div_eq_zero_iff_lt hpos).mp ?_)
      omega
  · intro hwhole
    refine List.Perm.sum_eq (List.perm_iff_count.mpr fun v => ?_)
    by_cases hmem : v ∈ set
    · have hv0 := hne v hmem
      have hvl : v ∈ l := (List.mem_filter.mp (hsub.subset hmem)).1
      have hc := hcount v hv0
      have hpos : 0 < set.count v := List.count_pos_iff.mpr hmem
      rw [List.count_filter (by simpa using hmem)]
      rcases hwhole v hvl hv0 with hlt | hle
      · rw [Nat.div_eq_of_lt hlt] at hc
        omega
      · have hdiv := (Nat.le_div_iff_mul_le (Nat.pos_of_ne_zero hv0)).mpr hle
        omega
    · rw [List.count_eq_zero.mpr hmem, List.count_eq_zero.mpr]
      intro hfilter
      exact hmem (by simpa using (List.mem_filter.mp hfilter).2)

end MeDiE.Verified.Greedy
