import MeDiE.Manager.Relab
import Mathlib.Algebra.BigOperators.Fin
import Mathlib.Algebra.Order.BigOperators.Group.Finset

/-!
# Loads of servers under a table

The abstract side of the load computation: what a server's entries weigh under
a table, the balanced level, and the input condition under which the `int`
arithmetic of `manager_calculate_relab` computes both.
-/

namespace MeDiE.Manager

open MeDiE.Table
open MeDiE.Verified.Word32

variable {n nb : Nat}

/-- Total load of the entries that `own` gives to server `s`. -/
def ownedLoad (globalList : Fin n → Nat) (own : Fin n → Fin nb) (s : Fin nb) : Nat :=
  ∑ e with own e = s, globalList e

/-- The balanced level: total load divided by the number of servers, rounded
down. -/
def mean (allList : Fin nb → Nat) : Nat := (∑ s, allList s) / nb

/-- The sums of the manager's two lists fit in an `int`. -/
structure LoadBounds (globalList : Fin n → Nat) (allList : Fin nb → Nat) : Prop where
  global_lt : ∑ e, globalList e < 2 ^ 31
  all_lt : ∑ s, allList s < 2 ^ 31

/-- The manager's view is consistent with its table, and sums fit in an `int`. -/
structure LoadInput (table : Mlt n (Fin nb)) (globalList : Fin n → Nat)
    (allList : Fin nb → Nat) : Prop where
  all_eq : ∀ s, allList s = ownedLoad globalList table.idSrv s
  total_lt : ∑ e, globalList e < 2 ^ 31

/-- The `int` accumulation of a list of loads, while the sum fits. -/
theorem foldl_toInt32 {ι : Type} (f : ι → Nat) (l : List ι) (acc : Nat)
    (hfit : acc + (l.map f).sum < 2 ^ 31) :
    l.foldl (fun sum i => toInt32 (sum + f i)) (acc : Int) =
      (acc + (l.map f).sum : Nat) := by
  induction l generalizing acc with
  | nil => simp
  | cons i l ih =>
      simp only [List.map_cons, List.sum_cons] at hfit ⊢
      rw [List.foldl_cons]
      have hstep : toInt32 ((acc : Int) + f i) = ((acc + f i : Nat) : Int) := by
        rw [toInt32_eq (by omega) (by omega)]
        push_cast
        rfl
      rw [hstep, ih (acc + f i) (by omega), Nat.add_assoc]

/-- A sum over the entries with a property, as a loop over all entries sums it. -/
theorem sum_filter_eq_list (p : Fin n → Prop) [DecidablePred p] (f : Fin n → Nat) :
    ∑ e with p e, f e = (((List.finRange n).filter (fun e => p e)).map f).sum := by
  rw [← List.sum_toFinset f ((List.nodup_finRange n).filter _)]
  refine Finset.sum_congr ?_ fun _ _ => rfl
  ext e
  simp

theorem sum_ownedLoad (globalList : Fin n → Nat) (own : Fin n → Fin nb) :
    ∑ s, ownedLoad globalList own s = ∑ e, globalList e :=
  Finset.sum_fiberwise Finset.univ own globalList

/-- The load of a server splits along a second table. -/
theorem ownedLoad_split (globalList : Fin n → Nat) (own own' : Fin n → Fin nb)
    (s : Fin nb) :
    ownedLoad globalList own s =
      ∑ e with own e = s ∧ own' e = s, globalList e +
        ∑ e with own e = s ∧ own' e ≠ s, globalList e := by
  unfold ownedLoad
  rw [← Finset.sum_filter_add_sum_filter_not _ (fun e => own' e = s),
    Finset.filter_filter, Finset.filter_filter]

variable {table : Mlt n (Fin nb)} {globalList : Fin n → Nat} {allList : Fin nb → Nat}

namespace LoadInput

theorem sum_allList (h : LoadInput table globalList allList) :
    ∑ s, allList s = ∑ e, globalList e := by
  rw [← sum_ownedLoad globalList table.idSrv]
  exact Finset.sum_congr rfl fun s _ => h.all_eq s

theorem bounds (h : LoadInput table globalList allList) :
    LoadBounds globalList allList where
  global_lt := h.total_lt
  all_lt := h.sum_allList ▸ h.total_lt

end LoadInput

namespace LoadBounds

theorem allList_lt (h : LoadBounds globalList allList) (s : Fin nb) :
    allList s < 2 ^ 31 := by
  have hle : allList s ≤ ∑ s, allList s :=
    Finset.single_le_sum (fun _ _ => Nat.zero_le _) (Finset.mem_univ s)
  have hall := h.all_lt
  omega

theorem globalList_lt (h : LoadBounds globalList allList) (e : Fin n) :
    globalList e < 2 ^ 31 := by
  have hle : globalList e ≤ ∑ e, globalList e :=
    Finset.single_le_sum (fun _ _ => Nat.zero_le _) (Finset.mem_univ e)
  have hglobal := h.global_lt
  omega

/-- Two different servers share the total, so twice the mean is an `int`. -/
theorem two_mean_lt (h : LoadBounds globalList allList) {l s : Fin nb}
    (hls : l ≠ s) : 2 * mean allList < 2 ^ 31 := by
  have hnb : 2 ≤ nb := by
    have hl := l.isLt
    have hs := s.isLt
    have hne : l.val ≠ s.val := fun heq => hls (Fin.ext heq)
    omega
  have hmul : mean allList * nb ≤ ∑ s, allList s := Nat.div_mul_le_self _ _
  have hle : mean allList * 2 ≤ mean allList * nb := Nat.mul_le_mul_left _ hnb
  have hall := h.all_lt
  omega

theorem mean_lt (h : LoadBounds globalList allList) : mean allList < 2 ^ 31 := by
  have hle : mean allList ≤ ∑ s, allList s := Nat.div_le_self _ _
  have hall := h.all_lt
  omega

theorem sumAll_eq (h : LoadBounds globalList allList) :
    sumAll allList = (∑ s, allList s : Nat) := by
  have hall := h.all_lt
  rw [Fin.sum_univ_def] at hall
  have hfold := foldl_toInt32 allList (List.finRange nb) 0 (by omega)
  rw [Fin.sum_univ_def, ← Nat.zero_add ((List.finRange nb).map allList).sum]
  exact hfold

theorem balanced_eq (h : LoadBounds globalList allList) :
    balanced allList = mean allList := by
  unfold balanced wFactor mean
  rw [h.sumAll_eq, Int.mul_one, Int.one_mul]
  exact (Int.ofNat_tdiv _ _).symm

theorem relativeLoad_eq (h : LoadBounds globalList allList) (s : Fin nb) :
    relativeLoad allList s = allList s - mean allList := by
  have hall := h.allList_lt s
  have hmean := h.mean_lt
  unfold relativeLoad
  rw [h.balanced_eq, toInt32_eq (by omega) (by omega)]

end LoadBounds

end MeDiE.Manager
