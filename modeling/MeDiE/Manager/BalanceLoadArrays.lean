import MeDiE.Manager.Loads
import MeDiE.Manager.SortSubset
import MeDiE.Verified.CountedArray

/-!
# `manager_balance_load` on its arrays

The selection of `manager_v2_indedh.c` and `manager_windowed.c` with its array accesses:
`list` holds indices of `global_list` and is sorted in place, `subset` receives the entries
that are selected, and `last_index` is a position in `list`.  As long as the loads of the
list add up to an `int`, the arrays hold what `managerBalanceLoad` computes on lists.
-/

namespace MeDiE.Manager

open MeDiE.Verified.BubbleSort
open MeDiE.Verified.Cells
open MeDiE.Verified.CountedArray
open MeDiE.Verified.Greedy
open MeDiE.Verified.Word32

variable {k n : Nat}

/-- What the selection loop changes. -/
structure BalanceArrays where
  subset : List Int
  idx : Int
  sum : Int
  lastIndex : Int
deriving DecidableEq

/-- The array `global_list`. -/
def globalCells (globalList : Fin n → Nat) : List Int :=
  List.ofFn fun e => (globalList e : Int)

/-- The loop over `list`, with the number of rounds that are left. -/
def balanceLoopArrays (globalList list : List Int) (goalLoad : Int) :
    Nat → Int → BalanceArrays → Option BalanceArrays
  | 0, _, arrays => some arrays
  | rounds + 1, i, arrays => do
      let entry ← readCell list i
      let load ← readCell globalList entry
      if toUInt32 (arrays.sum + load) ≤ toUInt32 goalLoad then
        if load = 0 then some arrays
        else
          let subset ← writeCell arrays.subset arrays.idx entry
          balanceLoopArrays globalList list goalLoad rounds (i + 1)
            { arrays with
              subset, idx := arrays.idx + 1, sum := toInt32 (arrays.sum + load) }
      else
        balanceLoopArrays globalList list goalLoad rounds (i + 1)
          { arrays with lastIndex := i }

/-- Add the element at `last_index` when it brings the sum closer to zero. -/
def closeArrays (globalList list : List Int) (arrays : BalanceArrays) :
    Option BalanceArrays :=
  if arrays.lastIndex = -1 then some arrays
  else do
    let entry ← readCell list arrays.lastIndex
    let load ← readCell globalList entry
    let far ← cAbs (toInt32 (arrays.sum + load))
    let near ← cAbs arrays.sum
    if far < near then
      let subset ← writeCell arrays.subset arrays.idx entry
      some { arrays with subset, idx := arrays.idx + 1 }
    else some arrays

/-- `manager_balance_load`: `list` as sorted in place, `subset` as filled, and the number
of entries in it. -/
def managerBalanceLoadArrays (globalList : Fin n → Nat) (currentLoad : Int) (list : List Int)
    (listSize goalLoad : Int) (subset : List Int) : Option (List Int × List Int × Int) := do
  let sorted ← managerSortSubsetArrays
    ⟨list, List.ofFn fun e => toInt32 (globalList e)⟩ listSize
  let arrays ← balanceLoopArrays (globalCells globalList) sorted.subset goalLoad
    listSize.toNat 0 ⟨subset, 0, currentLoad, -1⟩
  let arrays ← closeArrays (globalCells globalList) sorted.subset arrays
  some (sorted.subset, arrays.subset, arrays.idx)

/-! ## Lists of indices in an array -/

/-- A list of indices as the `int`s an array holds. -/
def indices (list : List (Fin k)) : List Int := list.map fun i : Fin k => ((i : Nat) : Int)

@[simp] theorem length_indices (list : List (Fin k)) : (indices list).length = list.length :=
  List.length_map _

theorem getElem?_indices {list : List (Fin k)} {i : Nat} {x : Fin k}
    (hget : list[i]? = some x) : (indices list)[i]? = some ((x : Nat) : Int) := by
  rw [indices, List.getElem?_map, hget]
  rfl

/-- The sort of an array of indices holds the sorted list. -/
theorem managerSortSubsetArrays_counted {cells : List Int} {size : Int} {list : List (Fin k)}
    (h : Counted cells size (indices list)) (srvload : Fin k → Int)
    (hmin : ∀ i ∈ list, srvload i ≠ -2 ^ 31) :
    ∃ cells', managerSortSubsetArrays ⟨cells, List.ofFn srvload⟩ size =
        some ⟨cells', List.ofFn srvload⟩ ∧
      cells'.length = cells.length ∧
      Counted cells' size (indices (managerSortSubset list srvload)) := by
  obtain ⟨rest, rfl⟩ := h.front
  have hkey : ∀ s ∈ indices list, HasKey (List.ofFn srvload) s := by
    intro s hs
    obtain ⟨i, hi, rfl⟩ := List.mem_map.mp hs
    exact ⟨_, readCell_ofFn srvload i, hmin i hi⟩
  have hsort : bubbleSort (loadKey (List.ofFn srvload)) (indices list) =
      indices (managerSortSubset list srvload) := by
    rw [indices, bubbleSort_map, indices, managerSortSubset]
    simp only [loadKey, readCell_ofFn, Option.getD_some]
  refine ⟨indices (managerSortSubset list srvload) ++ rest, ?_, ?_, ?_⟩
  · rw [h.size_eq, managerSortSubsetArrays_append _ _ hkey, hsort]
  · rw [List.length_append, List.length_append, length_indices, length_indices,
      managerSortSubset, length_bubbleSort]
  · exact
      { size_eq := by
          rw [h.size_eq, length_indices, length_indices, managerSortSubset, length_bubbleSort]
        front := ⟨rest, rfl⟩ }

/-! ## The loop on the list in the array -/

/-- `last_index` is -1, or the position of the element that is kept in mind. -/
def LastAt (list : List Int) (lastIndex : Int) : Option (Fin n) → Prop
  | none => lastIndex = -1
  | some e => lastIndex ≠ -1 ∧ readCell list lastIndex = some ((e : Nat) : Int)

/-- The loop over the cells behind a prefix selects from their list, as long as `subset` has
room for all of it. -/
theorem balanceLoopArrays_counted (globalList : Fin n → Nat) (goalLoad : Int)
    (list : List (Fin n)) (before after : List Int) (arrays : BalanceArrays)
    (taken : List Int) (last : Option (Fin n))
    (hcount : Counted arrays.subset arrays.idx taken)
    (hroom : taken.length + list.length ≤ arrays.subset.length)
    (hlast : LastAt (before ++ indices list ++ after) arrays.lastIndex last) :
    ∃ arrays', balanceLoopArrays (globalCells globalList) (before ++ indices list ++ after)
        goalLoad list.length before.length arrays = some arrays' ∧
      arrays'.subset.length = arrays.subset.length ∧
      Counted arrays'.subset arrays'.idx
        (taken ++ indices (balanceLoop globalList goalLoad arrays.sum last list).subset) ∧
      arrays'.sum = (balanceLoop globalList goalLoad arrays.sum last list).sum ∧
      LastAt (before ++ indices list ++ after) arrays'.lastIndex
        (balanceLoop globalList goalLoad arrays.sum last list).lastIndex := by
  induction list generalizing before arrays taken last with
  | nil =>
      refine ⟨arrays, rfl, rfl, ?_, rfl, hlast⟩
      simpa [balanceLoop, indices] using hcount
  | cons e list ih =>
      have hcells : before ++ indices (e :: list) ++ after =
          (before ++ [((e : Nat) : Int)]) ++ indices list ++ after := by
        simp [indices]
      have hentry : readCell (before ++ indices (e :: list) ++ after) before.length =
          some ((e : Nat) : Int) := by
        simp [indices]
      have hload : readCell (globalCells globalList) (e : Nat) = some (globalList e : Int) :=
        readCell_ofFn _ e
      have hnext : (before.length : Int) + 1 = (before ++ [((e : Nat) : Int)]).length := by
        simp
      rw [List.length_cons] at hroom
      rw [List.length_cons, balanceLoopArrays, hentry, balanceLoop]
      simp only [Option.bind_eq_bind, Option.bind_some, hload]
      by_cases hfit : toUInt32 (arrays.sum + globalList e) ≤ toUInt32 goalLoad
      · rw [if_pos hfit, if_pos hfit]
        by_cases hzero : globalList e = 0
        · rw [if_pos (by exact_mod_cast hzero), if_pos hzero]
          exact ⟨arrays, rfl, rfl, by simpa [indices] using hcount, rfl, hlast⟩
        · rw [if_neg (by exact_mod_cast hzero), if_neg hzero]
          obtain ⟨subset, hpush, hlen, hcount'⟩ := hcount.push (by omega) ((e : Nat) : Int)
          rw [hpush, hcells, hnext]
          rw [hcells] at hlast
          obtain ⟨arrays', hrun, hlen', hset, hsum, hlast'⟩ := ih _
            { arrays with
              subset, idx := arrays.idx + 1, sum := toInt32 (arrays.sum + globalList e) }
            _ last hcount' (by simp only [List.length_append, List.length_singleton]; omega)
            hlast
          refine ⟨arrays', hrun, hlen'.trans hlen, ?_, hsum, hlast'⟩
          simpa [indices] using hset
      · rw [if_neg hfit, if_neg hfit]
        have hkept : LastAt (before ++ indices (e :: list) ++ after) before.length (some e) :=
          ⟨by omega, hentry⟩
        rw [hcells] at hkept ⊢
        rw [hnext]
        exact ih _ { arrays with lastIndex := before.length } taken (some e) hcount
          (by dsimp only; omega) hkept

/-- While all loads together are an `int`, the sum stays below them, also with the element
that was passed over last. -/
theorem balanceLoop_room (globalList : Fin n → Nat) (goalLoad : Int) (sum : Nat)
    (last : Option (Fin n)) (list : List (Fin n))
    (hfit : sum + total globalList list < 2 ^ 31) :
    0 ≤ (balanceLoop globalList goalLoad sum last list).sum ∧
      (balanceLoop globalList goalLoad sum last list).sum ≤ sum + total globalList list ∧
      ((balanceLoop globalList goalLoad sum last list).lastIndex = last ∨
        ∃ e, (balanceLoop globalList goalLoad sum last list).lastIndex = some e ∧
          (balanceLoop globalList goalLoad sum last list).sum + globalList e ≤
            sum + total globalList list) := by
  induction list generalizing sum last with
  | nil => exact ⟨by simp [balanceLoop], by simp [balanceLoop], Or.inl rfl⟩
  | cons e list ih =>
      rw [total_cons] at hfit ⊢
      rw [balanceLoop]
      split
      · split
        · exact ⟨by simp, by simp; omega, Or.inl rfl⟩
        · have hnext : toInt32 ((sum : Int) + globalList e) =
              ((sum + globalList e : Nat) : Int) := by
            rw [toInt32_eq (by omega) (by omega)]
            push_cast
            rfl
          have h := ih (sum + globalList e) last (by omega)
          rw [hnext]
          push_cast at h ⊢
          rwa [← add_assoc]
      · obtain ⟨hlo, hhi, hlast⟩ := ih sum (some e) (by omega)
        refine ⟨hlo, by push_cast; omega, Or.inr ?_⟩
        rcases hlast with hlast | ⟨e', hlast, hle⟩
        · exact ⟨e, hlast, by push_cast; omega⟩
        · exact ⟨e', hlast, by push_cast; omega⟩

theorem balanceLoop_fits (globalList : Fin n → Nat) (goalLoad : Int) (list : List (Fin n))
    (hfit : total globalList list < 2 ^ 31) :
    0 ≤ (balanceLoop globalList goalLoad 0 none list).sum ∧
      ∀ e, (balanceLoop globalList goalLoad 0 none list).lastIndex = some e →
        (balanceLoop globalList goalLoad 0 none list).sum + globalList e < 2 ^ 31 := by
  obtain ⟨hlo, _, hlast⟩ := balanceLoop_room globalList goalLoad 0 none list (by omega)
  simp only [Int.natCast_zero] at hlo hlast
  refine ⟨hlo, fun e he => ?_⟩
  rcases hlast with hnone | ⟨e', he', hle⟩
  · rw [hnone] at he
    cases he
  · rw [he'] at he
    cases he
    omega

/-- Adding a load to a sum that is not negative does not bring it closer to zero. -/
theorem natAbs_toInt32_add {sum : Int} {load : Nat} (hsum : 0 ≤ sum)
    (hfit : sum + load < 2 ^ 31) :
    cAbs (toInt32 (sum + load)) = some (toInt32 (sum + load)).natAbs ∧
      cAbs sum = some sum.natAbs ∧ ¬ (toInt32 (sum + load)).natAbs < sum.natAbs := by
  rw [toInt32_eq (by omega) hfit]
  exact ⟨if_neg (by omega), if_neg (by omega), by omega⟩

/-- Nothing is added when the loop is over. -/
theorem closeArrays_eq (globalList : Fin n → Nat) (list : List Int) (arrays : BalanceArrays)
    (last : Option (Fin n)) (hlast : LastAt list arrays.lastIndex last)
    (hsum : 0 ≤ arrays.sum)
    (hfit : ∀ e, last = some e → arrays.sum + globalList e < 2 ^ 31) :
    closeArrays (globalCells globalList) list arrays = some arrays := by
  unfold closeArrays
  cases last with
  | none => exact if_pos hlast
  | some e =>
      obtain ⟨hne, hentry⟩ := hlast
      obtain ⟨hfar, hnear, hno⟩ := natAbs_toInt32_add hsum (hfit e rfl)
      have hload : readCell (globalCells globalList) (e : Nat) = some (globalList e : Int) :=
        readCell_ofFn _ e
      rw [if_neg hne, hentry]
      simp only [Option.bind_eq_bind, Option.bind_some, hload, hfar, hnear, if_neg hno]

/-- The selection from load zero is that of the loop. -/
theorem managerBalanceLoad_eq_loop (globalList : Fin n → Nat) (goalLoad : Int)
    (list : List (Fin n)) (hfit : total globalList list < 2 ^ 31) :
    managerBalanceLoad globalList 0 list goalLoad =
      (managerSortSubset list fun e => toInt32 (globalList e),
        (balanceLoop globalList goalLoad 0 none
          (managerSortSubset list fun e => toInt32 (globalList e))).subset) := by
  have hperm := managerSortSubset_perm list (fun e => toInt32 (globalList e))
  have htotal : total globalList (managerSortSubset list fun e => toInt32 (globalList e)) =
      total globalList list := (hperm.map globalList).sum_eq
  obtain ⟨hlo, hover⟩ := balanceLoop_fits globalList goalLoad _ (htotal ▸ hfit)
  unfold managerBalanceLoad
  dsimp only
  split
  · rename_i e he
    exact if_neg (natAbs_toInt32_add hlo (hover e he)).2.2
  · rfl

/-- **`manager_balance_load` from load zero**: on loads that add up to an `int` the call stays
inside of its arrays and leaves what the list model computes in them. -/
theorem managerBalanceLoadArrays_counted (globalList : Fin n → Nat) (goalLoad : Int)
    (list : List (Fin n)) {cells subset : List Int} {size : Int}
    (h : Counted cells size (indices list)) (hroom : list.length ≤ subset.length)
    (hfit : total globalList list < 2 ^ 31) :
    ∃ cells' subset' count,
      managerBalanceLoadArrays globalList 0 cells size goalLoad subset =
        some (cells', subset', count) ∧
      cells'.length = cells.length ∧ subset'.length = subset.length ∧
      Counted cells' size (indices (managerBalanceLoad globalList 0 list goalLoad).1) ∧
      Counted subset' count
        (indices (managerBalanceLoad globalList 0 list goalLoad).2) := by
  have hload : ∀ e ∈ list, toInt32 (globalList e) ≠ -2 ^ 31 := by
    intro e he
    have hle := le_total globalList he
    rw [toInt32_eq (by omega) (by omega)]
    omega
  obtain ⟨cells', hsort, hlen, hcount⟩ := managerSortSubsetArrays_counted h _ hload
  have hperm := managerSortSubset_perm list (fun e => toInt32 (globalList e))
  have htotal : total globalList (managerSortSubset list fun e => toInt32 (globalList e)) =
      total globalList list := (hperm.map globalList).sum_eq
  obtain ⟨rest, hcells⟩ := hcount.front
  obtain ⟨arrays, hrun, hlen', hset, hsum, hlast⟩ := balanceLoopArrays_counted globalList
    goalLoad (managerSortSubset list fun e => toInt32 (globalList e)) [] rest
    ⟨subset, 0, 0, -1⟩ [] none (Counted.nil subset) (by simpa [hperm.length_eq] using hroom) rfl
  obtain ⟨hlo, hover⟩ := balanceLoop_fits globalList goalLoad _ (htotal ▸ hfit)
  have hrounds : size.toNat =
      (managerSortSubset list fun e => toInt32 (globalList e)).length := by
    rw [h.size_eq, length_indices, hperm.length_eq, Int.toNat_natCast]
  have hmodel := managerBalanceLoad_eq_loop globalList goalLoad list hfit
  rw [List.nil_append, ← hcells] at hrun hlast
  have hclose := closeArrays_eq globalList cells' arrays _ hlast (hsum ▸ hlo)
    (fun e he => hsum ▸ hover e he)
  refine ⟨cells', arrays.subset, arrays.idx, ?_, hlen, hlen', hmodel ▸ hcount, hmodel ▸ hset⟩
  have hstart : ((([] : List Int).length : Nat) : Int) = 0 := rfl
  rw [hstart] at hrun
  rw [managerBalanceLoadArrays, hsort, hrounds]
  simp only [Option.bind_eq_bind, Option.bind_some, hrun, hclose]

end MeDiE.Manager
