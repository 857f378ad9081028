import MeDiE.Verified.BubbleSort
import MeDiE.Verified.Cells

/-!
# `manager_sort_subset` on its two arrays

The bubble sort of `manager_v2_indedh.c` and `manager_windowed.c` with its array accesses:
`subset` is compared through the loads it points at and written in place, `srvload` is only
read.  `none` is an access outside of an array, or `abs` of the one `int` that has none.
-/

namespace MeDiE.Manager

open MeDiE.Verified.BubbleSort
open MeDiE.Verified.Cells

/-- The two arrays `manager_sort_subset` is given. -/
structure SortArrays where
  subset : List Int
  srvload : List Int
deriving DecidableEq

/-- `abs`, which is not defined at `INT_MIN`. -/
def cAbs (x : Int) : Option Nat :=
  if x = -2 ^ 31 then none else some x.natAbs

/-- `abs(srvload[subset[j]])`. -/
def absLoad (arrays : SortArrays) (j : Int) : Option Nat := do
  let s ← readCell arrays.subset j
  let load ← readCell arrays.srvload s
  cAbs load

/-- The exchange of `subset[j]` and `subset[j+1]`. -/
def exchange (arrays : SortArrays) (j : Int) : Option SortArrays := do
  let temp ← readCell arrays.subset j
  let next ← readCell arrays.subset (j + 1)
  let subset ← writeCell arrays.subset j next
  let subset ← writeCell subset (j + 1) temp
  some { arrays with subset }

/-- The loop over `j`, with the number of rounds that are left. -/
def sortPass : Nat → Int → Bool → SortArrays → Option (Bool × SortArrays)
  | 0, _, sorted, arrays => some (sorted, arrays)
  | rounds + 1, j, sorted, arrays => do
      let left ← absLoad arrays j
      let right ← absLoad arrays (j + 1)
      if left < right then
        let arrays ← exchange arrays j
        sortPass rounds (j + 1) true arrays
      else sortPass rounds (j + 1) sorted arrays

/-- The loop over `i`, from `i - 1` down to 0. -/
def sortLoop : Nat → SortArrays → Option SortArrays
  | 0, arrays => some arrays
  | i + 1, arrays => do
      let (sorted, arrays) ← sortPass i 0 false arrays
      if sorted then sortLoop i arrays else some arrays

/-- `manager_sort_subset`. -/
def managerSortSubsetArrays (arrays : SortArrays) (size : Int) : Option SortArrays :=
  sortLoop size.toNat arrays

/-! ## The sort of the list in the array -/

/-- The key by which a server is sorted. -/
def loadKey (srvload : List Int) (s : Int) : Nat := ((readCell srvload s).getD 0).natAbs

/-- `s` is an index of `srvload`, and the load there has an absolute value. -/
def HasKey (srvload : List Int) (s : Int) : Prop :=
  ∃ load, readCell srvload s = some load ∧ load ≠ -2 ^ 31

theorem HasKey.cAbs {srvload : List Int} {s : Int} (h : HasKey srvload s) :
    (readCell srvload s).bind cAbs = some (loadKey srvload s) := by
  obtain ⟨load, hload, hmin⟩ := h
  rw [loadKey, hload]
  exact if_neg hmin

theorem absLoad_append {srvload : List Int} {s : Int} (h : HasKey srvload s)
    (before after : List Int) :
    absLoad ⟨before ++ s :: after, srvload⟩ before.length = some (loadKey srvload s) := by
  simp only [absLoad, Option.bind_eq_bind, readCell_append, Option.bind_some]
  exact h.cAbs

theorem exchange_append (srvload before after : List Int) (s t : Int) :
    exchange ⟨before ++ s :: t :: after, srvload⟩ before.length =
      some ⟨before ++ t :: s :: after, srvload⟩ := by
  have hsecond : ∀ x y, before ++ x :: y :: after = (before ++ [x]) ++ y :: after := by simp
  have hindex : (before.length : Int) + 1 = (before ++ [t]).length := by simp
  have hindex' : (before.length : Int) + 1 = (before ++ [s]).length := by simp
  simp only [exchange, Option.bind_eq_bind, readCell_append, Option.bind_some]
  rw [hindex', hsecond, readCell_append, ← hsecond, ← hindex']
  simp only [Option.bind_some, writeCell_append]
  rw [hindex, hsecond, writeCell_append, ← hsecond]
  rfl

/-- A pass over cells behind a prefix is a pass over their list. -/
theorem sortPass_append {srvload : List Int} (rounds : Nat) (list : List Int)
    (before after : List Int) (sorted : Bool) (hlen : rounds < list.length)
    (hkey : ∀ s ∈ list, HasKey srvload s) :
    sortPass rounds before.length sorted ⟨before ++ list ++ after, srvload⟩ =
      some (sorted || (bubblePass (loadKey srvload) rounds list).2,
        ⟨before ++ (bubblePass (loadKey srvload) rounds list).1 ++ after, srvload⟩) := by
  induction rounds, list using bubblePass.induct (loadKey srvload)
    generalizing before sorted with
  | case1 list => simp [sortPass, bubblePass]
  | case2 rounds => simp at hlen
  | case3 rounds s => simp at hlen
  | case4 rounds s t list hlt ih =>
      have hs := hkey s (by simp)
      have ht := hkey t (by simp)
      have hnext : (before.length : Int) + 1 = (before ++ [s]).length := by simp
      have hnext' : (before.length : Int) + 1 = (before ++ [t]).length := by simp
      have hleft := absLoad_append hs before (t :: (list ++ after))
      have hright := absLoad_append ht (before ++ [s]) (list ++ after)
      have hexchange := exchange_append srvload before (list ++ after) s t
      have hih := ih (before ++ [t]) true (by simpa using hlen)
        (fun x hx => hkey x (by simp at hx ⊢; tauto))
      rw [← hnext] at hright
      rw [← hnext'] at hih
      simp only [List.append_assoc, List.cons_append, List.nil_append] at hright hih ⊢
      rw [sortPass, bubblePass, if_pos hlt, hleft, hright]
      simp only [Option.bind_eq_bind, Option.bind_some, if_pos hlt, hexchange, hih]
      simp
  | case5 rounds s t list hlt ih =>
      have hs := hkey s (by simp)
      have ht := hkey t (by simp)
      have hnext : (before.length : Int) + 1 = (before ++ [s]).length := by simp
      have hleft := absLoad_append hs before (t :: (list ++ after))
      have hright := absLoad_append ht (before ++ [s]) (list ++ after)
      have hih := ih (before ++ [s]) sorted (by simpa using hlen)
        (fun x hx => hkey x (List.mem_cons_of_mem s hx))
      rw [← hnext] at hright hih
      simp only [List.append_assoc, List.cons_append, List.nil_append] at hright hih ⊢
      rw [sortPass, bubblePass, if_neg hlt, hleft, hright]
      simp only [Option.bind_eq_bind, Option.bind_some, if_neg hlt, hih]
      rw [List.cons_append]

theorem sortLoop_append {srvload : List Int} (i : Nat) (list after : List Int)
    (hlen : i ≤ list.length) (hkey : ∀ s ∈ list, HasKey srvload s) :
    sortLoop i ⟨list ++ after, srvload⟩ =
      some ⟨bubbleLoop (loadKey srvload) i list ++ after, srvload⟩ := by
  induction i generalizing list with
  | zero => rfl
  | succ i ih =>
      have hpass : sortPass i 0 false ⟨list ++ after, srvload⟩ = _ :=
        sortPass_append i list [] after false (by omega) hkey
      have hperm := bubblePass_perm (loadKey srvload) i list
      simp only [sortLoop, hpass, bubbleLoop, Option.bind_eq_bind, Option.bind_some,
        Bool.false_or, List.nil_append]
      by_cases hswap : (bubblePass (loadKey srvload) i list).2 = true
      · rw [if_pos hswap, if_pos hswap]
        refine ih _ ?_ fun s hs => hkey s (hperm.subset hs)
        rw [hperm.length_eq]
        omega
      · rw [if_neg hswap, if_neg hswap]

/-- The call sorts the first `size` cells of `subset` and does nothing else. -/
theorem managerSortSubsetArrays_append {srvload : List Int} (list after : List Int)
    (hkey : ∀ s ∈ list, HasKey srvload s) :
    managerSortSubsetArrays ⟨list ++ after, srvload⟩ list.length =
      some ⟨bubbleSort (loadKey srvload) list ++ after, srvload⟩ :=
  sortLoop_append list.length list after (le_refl _) hkey

/-- **`manager_sort_subset`**: on valid indices and loads that have an absolute value, the
call stays inside of its arrays, leaves `srvload` and what is behind the subset alone, and
puts the subset in decreasing order of absolute load, indices with the same one in the order
they had. -/
theorem managerSortSubsetArrays_sorts (srvload subset after : List Int)
    (hmin : ∀ load ∈ srvload, load ≠ -2 ^ 31)
    (hvalid : ∀ s ∈ subset, 0 ≤ s ∧ s < srvload.length) :
    ∃ subset', managerSortSubsetArrays ⟨subset ++ after, srvload⟩ subset.length =
        some ⟨subset' ++ after, srvload⟩ ∧
      subset'.Perm subset ∧
      subset'.Pairwise (fun a b => loadKey srvload b ≤ loadKey srvload a) ∧
      ∀ k, subset'.filter (fun s => loadKey srvload s = k) =
        subset.filter (fun s => loadKey srvload s = k) := by
  have hkey : ∀ s ∈ subset, HasKey srvload s := by
    intro s hs
    obtain ⟨hpos, hlt⟩ := hvalid s hs
    have hget : readCell srvload s = some srvload[s.toNat] := by
      rw [readCell, if_pos hpos, List.getElem?_eq_getElem]
    exact ⟨_, hget, hmin _ (List.getElem_mem _)⟩
  exact ⟨_, managerSortSubsetArrays_append subset after hkey, bubbleSort_perm _ subset,
    bubbleSort_descending _ subset, fun k => bubbleSort_filter _ k subset⟩

/-- Three servers, the first and the last with loads of the same size. -/
theorem managerSortSubsetArrays_sorts_three :
    ∃ subset', managerSortSubsetArrays ⟨[0, 1, 2] ++ [7], [2, -5, -2]⟩ 3 =
        some ⟨subset' ++ [7], [2, -5, -2]⟩ ∧
      subset'.Perm [0, 1, 2] ∧
      subset'.Pairwise (fun a b => loadKey [2, -5, -2] b ≤ loadKey [2, -5, -2] a) ∧
      ∀ k, subset'.filter (fun s => loadKey [2, -5, -2] s = k) =
        [0, 1, 2].filter (fun s => loadKey [2, -5, -2] s = k) :=
  managerSortSubsetArrays_sorts [2, -5, -2] [0, 1, 2] [7] (by decide) (by decide)

end MeDiE.Manager
