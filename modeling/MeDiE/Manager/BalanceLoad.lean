import MeDiE.Verified.BubbleSort
import MeDiE.Verified.Greedy
import MeDiE.Verified.Word32

/-!
# Greedy selection of entries (`manager_v2_indedh.c`, `manager_windowed.c`)

`manager_balance_load` sorts a list of entries by decreasing load and walks
along it once.  Its arithmetic mixes `int` and `uint32_t`; as long as the goal
and the loads fit in 31 bits together it is the greedy selection of
`MeDiE.Verified.Greedy`.
-/

namespace MeDiE.Manager

open MeDiE.Verified.BubbleSort
open MeDiE.Verified.Greedy
open MeDiE.Verified.Word32

variable {ι : Type}

/-- `manager_sort_subset`: bubble sort by decreasing absolute load. -/
def managerSortSubset (subset : List ι) (srvload : ι → Int) : List ι :=
  bubbleSort (fun i => (srvload i).natAbs) subset

/-- The local variables of `manager_balance_load` when its loop is over. -/
structure BalanceResult (ι : Type) where
  subset : List ι
  sum : Int
  lastIndex : Option ι

/-- The selection loop of `manager_balance_load`, from a partial `sum` on. -/
def balanceLoop (globalList : ι → Nat) (goalLoad : Int) :
    Int → Option ι → List ι → BalanceResult ι
  | sum, lastIndex, [] => ⟨[], sum, lastIndex⟩
  | sum, lastIndex, i :: list =>
      if toUInt32 (sum + globalList i) ≤ toUInt32 goalLoad then
        if globalList i = 0 then ⟨[], sum, lastIndex⟩
        else
          let r := balanceLoop globalList goalLoad
            (toInt32 (sum + globalList i)) lastIndex list
          { r with subset := i :: r.subset }
      else balanceLoop globalList goalLoad sum (some i) list

/-- `manager_balance_load`: the list as sorted in place, and the subset.  The
loads are passed to the sort as `int *`. -/
def managerBalanceLoad (globalList : ι → Nat) (currentLoad : Int) (list : List ι)
    (goalLoad : Int) : List ι × List ι :=
  let list := managerSortSubset list (fun i => toInt32 (globalList i))
  let r := balanceLoop globalList goalLoad currentLoad none list
  match r.lastIndex with
  | some i =>
      if (toInt32 (r.sum + globalList i)).natAbs < r.sum.natAbs then
        (list, r.subset ++ [i])
      else (list, r.subset)
  | none => (list, r.subset)

/-! ## The selection without wrap-around

The comparison with the goal is unsigned, so a single load may be as large as
any `int` and the sum with it may pass `2 ^ 31`; only the closing step reads
that sum as an `int`, and twice the goal bounds what it can do there.
-/

/-- A goal and loads for which no step of the selection wraps around. -/
structure FitsInt (globalList : ι → Nat) (goal : Nat) (list : List ι) : Prop where
  goal_lt : goal < 2 ^ 31
  load_lt : ∀ i ∈ list, globalList i < 2 ^ 31
  close_le : ∀ i ∈ list, 2 * goal + globalList i ≤ 2 ^ 32

theorem FitsInt.tail {globalList : ι → Nat} {goal : Nat} {i : ι} {list : List ι}
    (h : FitsInt globalList goal (i :: list)) : FitsInt globalList goal list where
  goal_lt := h.goal_lt
  load_lt := fun j hj => h.load_lt j (List.mem_cons_of_mem i hj)
  close_le := fun j hj => h.close_le j (List.mem_cons_of_mem i hj)

/-- Without wrap-around the loop takes what the greedy selection takes, and
`sum` stays between zero and the goal. -/
theorem balanceLoop_eq (globalList : ι → Nat) (goal sum : Nat)
    (last : Option ι) (list : List ι) (hle : sum ≤ goal)
    (hfit : FitsInt globalList goal list) :
    (balanceLoop globalList goal sum last list).subset =
        greedyTake globalList (goal - sum) list ∧
      0 ≤ (balanceLoop globalList goal sum last list).sum ∧
      (balanceLoop globalList goal sum last list).sum ≤ goal ∧
      ((balanceLoop globalList goal sum last list).lastIndex = last ∨
        ∃ i ∈ list,
          (balanceLoop globalList goal sum last list).lastIndex = some i) := by
  induction list generalizing sum last with
  | nil => exact ⟨rfl, by simp [balanceLoop], by simpa [balanceLoop] using hle,
      Or.inl rfl⟩
  | cons i list ih =>
      have hi := hfit.load_lt i (by simp)
      have hg := hfit.goal_lt
      have hsum : toUInt32 ((sum : Int) + globalList i) = (sum + globalList i : Nat) := by
        rw [toUInt32_eq (by omega) (by omega)]
        push_cast
        rfl
      have hgoal : toUInt32 (goal : Int) = goal := toUInt32_eq (by omega) (by omega)
      have hcond : toUInt32 ((sum : Int) + globalList i) ≤ toUInt32 goal ↔
          globalList i ≤ goal - sum := by
        rw [hsum, hgoal]
        omega
      rw [balanceLoop, greedyTake]
      by_cases hc : globalList i ≤ goal - sum
      · rw [if_pos (hcond.mpr hc), if_pos hc]
        by_cases hz : globalList i = 0
        · rw [if_pos hz, if_pos hz]
          exact ⟨rfl, by simp, by simpa using hle, Or.inl rfl⟩
        · rw [if_neg hz, if_neg hz]
          have hnext : toInt32 ((sum : Int) + globalList i) =
              ((sum + globalList i : Nat) : Int) := by
            rw [toInt32_eq (by omega) (by omega)]
            push_cast
            rfl
          obtain ⟨hsub, hlo, hhi, hlast⟩ :=
            ih (sum + globalList i) last (by omega) hfit.tail
          rw [hnext]
          refine ⟨?_, hlo, hhi, ?_⟩
          · rw [← Nat.sub_sub] at hsub
            exact congrArg (i :: ·) hsub
          · rcases hlast with h | ⟨j, hj, h⟩
            · exact Or.inl h
            · exact Or.inr ⟨j, by simp [hj], h⟩
      · rw [if_neg (fun h => hc (hcond.mp h)), if_neg hc]
        obtain ⟨hsub, hlo, hhi, hlast⟩ := ih sum (some i) hle hfit.tail
        refine ⟨hsub, hlo, hhi, Or.inr ?_⟩
        rcases hlast with h | ⟨j, hj, h⟩
        · exact ⟨i, by simp, h⟩
        · exact ⟨j, by simp [hj], h⟩

/-- `manager_balance_load` from load zero: the closing step never adds an
element, since adding one cannot bring a nonnegative sum closer to zero. -/
theorem managerBalanceLoad_eq (globalList : ι → Nat) (list : List ι) (goal : Nat)
    (hfit : FitsInt globalList goal list) :
    managerBalanceLoad globalList 0 list goal =
      (managerSortSubset list (fun i => toInt32 (globalList i)),
        greedyTake globalList goal
          (managerSortSubset list (fun i => toInt32 (globalList i)))) := by
  have hmem : ∀ i ∈ managerSortSubset list (fun i => toInt32 (globalList i)),
      i ∈ list := fun i hi => by simpa [managerSortSubset] using hi
  have hsorted : FitsInt globalList goal
      (managerSortSubset list (fun i => toInt32 (globalList i))) :=
    { goal_lt := hfit.goal_lt
      load_lt := fun i hi => hfit.load_lt i (hmem i hi)
      close_le := fun i hi => hfit.close_le i (hmem i hi) }
  have h := balanceLoop_eq globalList goal 0 none _ (Nat.zero_le goal) hsorted
  obtain ⟨hsub, hlo, hhi, hlast⟩ := h
  rw [Nat.sub_zero] at hsub
  unfold managerBalanceLoad
  simp only [Int.natCast_zero] at hsub hlo hhi hlast
  rcases hlast with h | ⟨i, hi, h⟩
  · simp only [h, hsub]
  · have hload := hsorted.load_lt i hi
    have hclose := hsorted.close_le i hi
    have hgoal := hsorted.goal_lt
    have hno : ¬ (toInt32 ((balanceLoop globalList goal 0 none
        (managerSortSubset list fun i => toInt32 (globalList i))).sum +
          globalList i)).natAbs <
        (balanceLoop globalList goal 0 none
          (managerSortSubset list fun i => toInt32 (globalList i))).sum.natAbs := by
      have hfar := le_natAbs_toInt32 hlo
        (show _ ≤ (balanceLoop globalList goal 0 none
          (managerSortSubset list fun i => toInt32 (globalList i))).sum +
            globalList i by omega) (by omega)
      omega
    simp only [h, hsub, if_neg hno]

/-- The list is only sorted, whatever the loads are. -/
theorem managerBalanceLoad_fst (globalList : ι → Nat) (currentLoad : Int)
    (list : List ι) (goalLoad : Int) :
    (managerBalanceLoad globalList currentLoad list goalLoad).1 =
      managerSortSubset list (fun i => toInt32 (globalList i)) := by
  unfold managerBalanceLoad
  dsimp only
  split
  · split <;> rfl
  · rfl

/-- The sorted list is in decreasing order of load when the loads are `int`s. -/
theorem managerSortSubset_descending (globalList : ι → Nat) (list : List ι)
    (hfit : ∀ i ∈ list, globalList i < 2 ^ 31) :
    (managerSortSubset list (fun i => toInt32 (globalList i))).Pairwise
      (fun a b => globalList b ≤ globalList a) := by
  have hdesc := bubbleSort_descending (fun i => (toInt32 (globalList i)).natAbs) list
  refine hdesc.imp_of_mem ?_
  intro a b ha hb hab
  have hga := hfit a (by simpa using ha)
  have hgb := hfit b (by simpa using hb)
  change (toInt32 (globalList b)).natAbs ≤ (toInt32 (globalList a)).natAbs at hab
  rw [toInt32_eq (by omega) (by omega), toInt32_eq (by omega) (by omega)] at hab
  omega

theorem managerSortSubset_perm (subset : List ι) (srvload : ι → Int) :
    (managerSortSubset subset srvload).Perm subset :=
  bubbleSort_perm _ subset

@[simp] theorem mem_managerSortSubset (subset : List ι) (srvload : ι → Int) (i : ι) :
    i ∈ managerSortSubset subset srvload ↔ i ∈ subset :=
  (managerSortSubset_perm subset srvload).mem_iff

/-! ## What is selected -/

/-- Loads over the list that leave room for the goal below `2 ^ 31`. -/
theorem FitsInt.of_total {globalList : ι → Nat} {goal : Nat} {list : List ι}
    (h : total globalList list + goal < 2 ^ 31) : FitsInt globalList goal list where
  goal_lt := by omega
  load_lt := fun i hi => by
    have := le_total globalList hi
    omega
  close_le := fun i hi => by
    have := le_total globalList hi
    omega

/-- **Selection from load zero**: on a list of different entries, whose loads and the goal
together fit in an `int`, the list is only permuted; the subset holds different elements of
it, none without load, stays within the goal, and cannot be extended by an element that has
a load. -/
theorem managerBalanceLoad_sound_maximal (globalList : ι → Nat) (list : List ι)
    (goalLoad : Nat) (hnodup : list.Nodup)
    (hfit : total globalList list + goalLoad < 2 ^ 31) :
    (managerBalanceLoad globalList 0 list goalLoad).1.Perm list ∧
      (managerBalanceLoad globalList 0 list goalLoad).2.Nodup ∧
      (∀ i ∈ (managerBalanceLoad globalList 0 list goalLoad).2,
        i ∈ list ∧ globalList i ≠ 0) ∧
      (managerBalanceLoad globalList 0 list goalLoad).2.length ≤ list.length ∧
      total globalList (managerBalanceLoad globalList 0 list goalLoad).2 ≤ goalLoad ∧
      ∀ i ∈ list, i ∉ (managerBalanceLoad globalList 0 list goalLoad).2 →
        globalList i = 0 ∨
          goalLoad <
            total globalList (managerBalanceLoad globalList 0 list goalLoad).2 +
              globalList i := by
  have hfits : FitsInt globalList goalLoad list := FitsInt.of_total hfit
  have hdesc := managerSortSubset_descending globalList list hfits.load_lt
  have hperm := managerSortSubset_perm list (fun i => toInt32 (globalList i))
  rw [managerBalanceLoad_eq globalList list goalLoad hfits]
  have hsub := greedyTake_sublist globalList goalLoad
    (managerSortSubset list fun i => toInt32 (globalList i))
  refine ⟨hperm, hsub.nodup (hperm.nodup_iff.mpr hnodup), ?_, ?_, ?_, ?_⟩
  · intro i hi
    exact ⟨hperm.subset (hsub.subset hi), greedyTake_ne_zero globalList goalLoad _ i hi⟩
  · exact hperm.length_eq ▸ hsub.length_le
  · exact total_greedyTake_le globalList goalLoad _
  · intro i hi hnot
    exact greedyTake_maximal globalList goalLoad _ hdesc i (hperm.symm.subset hi) hnot

/-- Three entries of loads 3, 5 and 0, of which 6 is to be given away. -/
theorem managerBalanceLoad_sound_maximal_three :
    total (fun i => [3, 5, 0].getD i 0)
        (managerBalanceLoad (fun i => [3, 5, 0].getD i 0) 0 [0, 1, 2] 6).2 ≤ 6 ∧
      ∀ i ∈ [0, 1, 2], i ∉ (managerBalanceLoad (fun i => [3, 5, 0].getD i 0) 0
          [0, 1, 2] 6).2 →
        [3, 5, 0].getD i 0 = 0 ∨
          6 < total (fun i => [3, 5, 0].getD i 0)
            (managerBalanceLoad (fun i => [3, 5, 0].getD i 0) 0 [0, 1, 2] 6).2 +
              [3, 5, 0].getD i 0 :=
  (managerBalanceLoad_sound_maximal (fun i => [3, 5, 0].getD i 0) [0, 1, 2] 6
    (by decide) (by decide)).2.2.2.2

end MeDiE.Manager
