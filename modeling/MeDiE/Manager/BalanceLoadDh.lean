import MeDiE.Manager.RelabDhMatching

/-!
# How near `manager_balance_load` of `manager_dh.c` comes to its goal

The loop is the greedy selection in the room between the load and the goal.  The closing
step looks at the last load that was passed over, and adds it if the sum then is nearer to
zero, whatever the goal is.  For the goal zero of the matching of servers this is the
distance to the goal; for the goal of a server that gives entries away it is not.
-/

namespace MeDiE.ManagerDh

open MeDiE.Manager
open MeDiE.Verified.Greedy
open MeDiE.Verified.Word32

/-- The selection loop from `room` below the goal on. -/
theorem balanceLoop_room (goal room : Nat) (last : Option Nat) (list : List Nat)
    (hlo : -2 ^ 31 ≤ (goal : Int) - room) (hhi : (goal : Int) - room + list.sum < 2 ^ 31) :
    balanceLoop goal (goal - room) (last.map (↑)) (intsOf list) =
      { subset := intsOf (greedyTake id room list)
        sum := goal - (room - total id (greedyTake id room list) : Nat)
        lastIndex := (lastLeft room last list).map (↑) } := by
  induction list generalizing room last with
  | nil => simp [balanceLoop, intsOf, greedyTake, lastLeft]
  | cons v list ih =>
      rw [List.sum_cons] at hhi
      have hsum : toInt32 ((goal : Int) - room + v) = (goal : Int) - room + v :=
        toInt32_eq (by omega) (by omega)
      rw [intsOf_cons, balanceLoop, hsum, greedyTake, lastLeft, id_eq]
      by_cases hle : v ≤ room
      · rw [if_pos (by omega), if_pos hle, if_pos hle]
        by_cases hzero : v = 0
        · rw [if_pos (by omega), if_pos hzero, if_pos hzero]
          simp [intsOf]
        · have hnext : (goal : Int) - room + v = goal - ((room - v : Nat) : Int) := by omega
          rw [if_neg (by omega), if_neg hzero, if_neg hzero, hnext,
            ih (room - v) last (by omega) (by omega), total_cons,
            ← Nat.sub_sub]
          rfl
      · rw [if_neg (by omega), if_neg hle, if_neg hle]
        exact ih room (some v) hlo (by omega)

/-- `manager_balance_load` from `room` below the goal on. -/
theorem managerBalanceLoad_room (goal room : Nat) (list : List Nat)
    (hlo : -2 ^ 31 ≤ (goal : Int) - room) (hhi : (goal : Int) - room + list.sum < 2 ^ 31)
    (hfit : ∀ v ∈ list, v < 2 ^ 31) :
    managerBalanceLoad (goal - room) (intsOf list) goal =
      (intsOf (list.insertionSort (fun a b => b ≤ a)),
        intsOf (closeTowards goal room (list.insertionSort (fun a b => b ≤ a)))) := by
  have hperm := List.perm_insertionSort (fun a b : Nat => b ≤ a) list
  have hloop := balanceLoop_room goal room none (list.insertionSort (fun a b => b ≤ a)) hlo
    (by rwa [hperm.sum_eq])
  unfold managerBalanceLoad closeTowards
  rw [qsort_intsOf list hfit]
  rw [Option.map_none] at hloop
  simp only [hloop]
  cases hlast : lastLeft room none (list.insertionSort (fun a b => b ≤ a)) with
  | none => rfl
  | some w =>
      have hpos : 0 < w := (lastLeft_pos hlast).resolve_left (by simp)
      have hsub := ((lastLeft_subperm hlast).resolve_left (by simp)).trans hperm.subperm
      have htotal : w + total id (greedyTake id room
          (list.insertionSort (fun a b => b ≤ a))) ≤ list.sum := by
        obtain ⟨l, hl, hll⟩ := hsub
        have hle := hll.sum_le_sum fun _ _ => Nat.zero_le _
        rw [hl.sum_eq, List.sum_cons] at hle
        simpa [total] using hle
      have hle := total_greedyTake_le id room (list.insertionSort (fun a b => b ≤ a))
      generalize total id (greedyTake id room
        (list.insertionSort (fun a b => b ≤ a))) = taken at htotal hle ⊢
      have hsum : toInt32 ((goal : Int) - ((room - taken : Nat) : Int) + w) =
          (goal : Int) - ((room - taken : Nat) : Int) + w :=
        toInt32_eq (by omega) (by omega)
      have hcloser : ((goal : Int) - ((room - taken : Nat) : Int) + w).natAbs <
          ((goal : Int) - ((room - taken : Nat) : Int)).natAbs ↔
          w + 2 * goal < 2 * (room - taken) := by omega
      simp only [Option.map_some, hsum, hcloser]
      split
      · simp [intsOf]
      · rfl

/-! ## Zeros -/

/-- The loads above zero, in decreasing order. -/
def positives (list : List Int) : List Nat := (descending list).filter (0 < ·)

theorem positives_ne_zero (list : List Int) : ∀ v ∈ positives list, v ≠ 0 := by
  intro v hv
  have hpos : 0 < v := by simpa using (List.mem_filter.mp hv).2
  omega

theorem positives_descending (list : List Int) :
    (positives list).Pairwise (fun a b => b ≤ a) :=
  (List.pairwise_insertionSort _ _).filter _

/-- The zeros at the end of the list are neither taken nor passed over. -/
theorem closeTowards_zeros (goal room : Nat) {l : List Nat}
    (hdesc : l.Pairwise (fun a b => b ≤ a)) :
    closeTowards goal room l = closeTowards goal room (l.filter (0 < ·)) := by
  have hne : ∀ a ∈ l.filter (0 < ·), a ≠ 0 := filter_gt_ne_zero 0 l
  have htake : ∀ room k, greedyTake id room (List.replicate k 0) = [] := by
    intro room k
    cases k <;> simp [List.replicate_succ, greedyTake]
  have hlast : ∀ room last k, lastLeft room last (List.replicate k 0) = last := by
    intro room last k
    cases k <;> simp [List.replicate_succ, lastLeft]
  have hsplit : l = l.filter (0 < ·) ++ List.replicate (l.count 0) 0 := by
    have h := descending_split l 0 hdesc
    simpa using h
  have hgreedy : greedyTake id room l = greedyTake id room (l.filter (0 < ·)) := by
    conv_lhs => rw [hsplit]
    rw [greedyTake_append id _ _ _ hne, htake, List.append_nil]
  have hlastLeft : lastLeft room none l = lastLeft room none (l.filter (0 < ·)) := by
    conv_lhs => rw [hsplit]
    rw [lastLeft_append _ _ _ _ hne, hlast]
  unfold closeTowards
  rw [hgreedy, hlastLeft]

/-! ## The subset that is returned -/

/-- Of no load is a copy left over that would bring the sum nearer to the goal. -/
def EndsNear (currentLoad goalLoad : Int) (list subset : List Int) : Prop :=
  ∀ v, subset.count v < list.count v →
    ¬ |currentLoad + subset.sum + v - goalLoad| < |currentLoad + subset.sum - goalLoad|

/-- The load that is passed over last, if there is one, is at least twice what is then
missing to the goal, or the goal is small enough for the closing step to add it. -/
def PassesFar (currentLoad goalLoad : Int) (list : List Int) : Prop :=
  ∀ v ∈ positives list, LeftLast (goalLoad - currentLoad).toNat (positives list) v →
    2 * missingAfter (goalLoad - currentLoad).toNat (positives list) v ≤ v ∨
      v + 2 * goalLoad.toNat <
        2 * missingAfter (goalLoad - currentLoad).toNat (positives list) v

instance (currentLoad goalLoad : Int) (list : List Int) :
    Decidable (PassesFar currentLoad goalLoad list) :=
  inferInstanceAs (Decidable (∀ v ∈ positives list, _))

/-- A list of `int`s that are not negative. -/
def Loads (list : List Int) : Prop := ∀ v ∈ list, 0 ≤ v ∧ v < 2 ^ 31

section Selection

variable {list : List Int}

theorem Loads.intsOf_toNat (h : Loads list) : intsOf (list.map Int.toNat) = list := by
  unfold intsOf
  rw [List.map_map]
  refine (List.map_congr_left fun v hv => ?_).trans (List.map_id list)
  exact Int.toNat_of_nonneg (h v hv).1

theorem Loads.sum_toNat (h : Loads list) :
    (((list.map Int.toNat).sum : Nat) : Int) = list.sum := by
  rw [← sum_intsOf, h.intsOf_toNat]

/-- `manager_balance_load` takes the greedy selection from the loads above zero. -/
theorem managerBalanceLoad_snd {currentLoad goalLoad : Int} (h : Loads list)
    (hgoal : 0 ≤ goalLoad) (hle : currentLoad ≤ goalLoad) (hlo : -2 ^ 31 < currentLoad)
    (hhi : currentLoad + list.sum < 2 ^ 31) :
    (managerBalanceLoad currentLoad list goalLoad).2 =
      intsOf (closeTowards goalLoad.toNat (goalLoad - currentLoad).toNat (positives list)) := by
  have hgoal' : ((goalLoad.toNat : Nat) : Int) = goalLoad := Int.toNat_of_nonneg hgoal
  have hroom : ((goalLoad.toNat : Nat) : Int) - ((goalLoad - currentLoad).toNat : Nat) =
      currentLoad := by omega
  have heq := managerBalanceLoad_room goalLoad.toNat (goalLoad - currentLoad).toNat
    (list.map Int.toNat) (by omega) (by rw [hroom, h.sum_toNat]; exact hhi)
    (fun v hv => by
      obtain ⟨w, hw, rfl⟩ := List.mem_map.mp hv
      have hlt := (h w hw).2
      omega)
  rw [hroom, hgoal', h.intsOf_toNat] at heq
  rw [heq]
  exact congrArg intsOf (closeTowards_zeros _ _ (List.pairwise_insertionSort _ _))

theorem Loads.perm_descending (h : Loads list) : (intsOf (descending list)).Perm list := by
  have hperm : (descending list).Perm (list.map Int.toNat) := List.perm_insertionSort _ _
  calc (intsOf (descending list)).Perm (intsOf (list.map Int.toNat)) := hperm.map _
    _ = list := h.intsOf_toNat

/-- The positive loads of the list are those above zero. -/
theorem Loads.count_positives (h : Loads list) {v : Nat} (hv : v ≠ 0) :
    (positives list).count v = list.count (v : Int) := by
  rw [← h.perm_descending.count_eq, count_intsOf, positives, List.count_filter]
  simpa using Nat.pos_of_ne_zero hv

/-- **The greedy selection of `manager_dh.c`**: on loads that are not negative, a goal that
is neither negative nor below the current load, and sums that are `int`s, what is returned
is part of the list, and nothing that is left over would bring the load nearer to the goal
exactly when the load that is passed over last is far enough from what is missing. -/
theorem managerBalanceLoad_near_iff {currentLoad goalLoad : Int} (h : Loads list)
    (hgoal : 0 ≤ goalLoad) (hle : currentLoad ≤ goalLoad) (hlo : -2 ^ 31 < currentLoad)
    (hhi : currentLoad + list.sum < 2 ^ 31) :
    ((managerBalanceLoad currentLoad list goalLoad).2.Subperm list ∧
        EndsNear currentLoad goalLoad list
          (managerBalanceLoad currentLoad list goalLoad).2) ↔
      PassesFar currentLoad goalLoad list := by
  rw [managerBalanceLoad_snd h hgoal hle hlo hhi]
  have hsub : (intsOf (closeTowards goalLoad.toNat (goalLoad - currentLoad).toNat
      (positives list))).Subperm list :=
    (((closeTowards_subperm _ _ _).map Int.ofNat_injective).trans
      (List.filter_sublist.map Int.ofNat).subperm).trans h.perm_descending.subperm
  rw [PassesFar, ← closeTowards_near_iff goalLoad.toNat (positives_ne_zero list)
    (positives_descending list)]
  generalize closeTowards goalLoad.toNat (goalLoad - currentLoad).toNat (positives list) =
    set at hsub ⊢
  have hroom : (((goalLoad - currentLoad).toNat : Nat) : Int) = goalLoad - currentLoad :=
    Int.toNat_of_nonneg (by omega)
  have hdist : ∀ x : Int, currentLoad + x - goalLoad = x - (goalLoad - currentLoad) := by
    intro x
    ring
  constructor
  · rintro ⟨-, hnear⟩ v ⟨hleft, hcloser⟩
    have hv : v ≠ 0 := positives_ne_zero list v (List.count_pos_iff.mp (by omega))
    refine hnear v (by rwa [count_intsOf, ← h.count_positives hv]) ?_
    rw [sum_intsOf, add_assoc, hdist, hdist, ← hroom]
    exact hcloser
  · refine fun hnear => ⟨hsub, fun v hleft hcloser => ?_⟩
    have hmem : v ∈ list := List.count_pos_iff.mp (by omega)
    obtain ⟨k, rfl⟩ : ∃ k : Nat, v = k := ⟨v.toNat, (Int.toNat_of_nonneg (h v hmem).1).symm⟩
    by_cases hk : k = 0
    · subst hk
      simp at hcloser
    · refine hnear k ⟨by rwa [h.count_positives hk, ← count_intsOf], ?_⟩
      rw [sum_intsOf, add_assoc, hdist, hdist, ← hroom] at hcloser
      exact hcloser

end Selection

/-- A server that lacks 4 and the loads 5, 3 and 0. -/
theorem managerBalanceLoad_near_iff_lacking :
    ((managerBalanceLoad (-4) [3, 0, 5] 0).2.Subperm [3, 0, 5] ∧
        EndsNear (-4) 0 [3, 0, 5] (managerBalanceLoad (-4) [3, 0, 5] 0).2) ↔
      PassesFar (-4) 0 [3, 0, 5] :=
  @managerBalanceLoad_near_iff [3, 0, 5] (-4) 0 (by unfold Loads; decide) (by decide)
    (by decide) (by decide) (by decide)

/-- An entry of load 3 is not given away for the goal 2, though the load would then be off by
one only. -/
theorem managerBalanceLoad_three_for_two :
    ¬ EndsNear 0 2 [3] (managerBalanceLoad 0 [3] 2).2 := by
  intro hnear
  have hnone : (managerBalanceLoad 0 [3] 2).2 = [] := by decide
  rw [hnone] at hnear
  exact hnear 3 (by decide) (by decide)

/-- For the goal zero the closing step measures the distance to the goal. -/
theorem passesFar_goal_zero (currentLoad : Int) (list : List Int) :
    PassesFar currentLoad 0 list := by
  intro v _ _
  rw [Int.toNat_zero]
  omega

end MeDiE.ManagerDh
