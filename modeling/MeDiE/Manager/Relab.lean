import MeDiE.Manager.BalanceLoad
import MeDiE.Table.Mlt
import MeDiE.Verified.SwapRemove

/-!
# `manager_calculate_relab` (`manager_v2_indedh.c`, `manager_windowed.c`)

The two files hold the same function.  An array with its size counter is a
list; the loops keep the C index and run on a fuel that the size of the array
at loop entry always covers, since the index grows in every round and no loop
makes its array longer.  Table accesses are at indices below `N_entry`, so the
error exits of `mlt_get_entry` and `mlt_update_entry` are not reached.
-/

namespace MeDiE.Manager

open MeDiE.Table
open MeDiE.Verified.SwapRemove
open MeDiE.Verified.Word32

variable {n nb : Nat}

/-- `w_factor`, the performance factor of each server. -/
def wFactor : Int := 1

/-- The local variables of `manager_calculate_relab` that its loops share. -/
structure Relab (n nb : Nat) where
  target : Fin n → Fin nb
  load : Fin nb → Int
  subsetL : List (Fin nb)
  subsetS : List (Fin nb)
  subsetSrv : List (Fin n)

/-- `sum_all`, an `int` summing `uint32_t` values. -/
def sumAll (allList : Fin nb → Nat) : Int :=
  (List.finRange nb).foldl (fun sum s => toInt32 (sum + allList s)) 0

/-- `mean_load = sum_all / nb`. -/
def meanLoad (allList : Fin nb → Nat) : Int := (sumAll allList).tdiv nb

/-- `balanced = (sum_all * w_factor) / sum_w`. -/
def balanced (allList : Fin nb → Nat) : Int :=
  (sumAll allList * wFactor).tdiv (wFactor * nb)

/-- The relative load of a server before any entry is moved. -/
def relativeLoad (allList : Fin nb → Nat) (s : Fin nb) : Int :=
  toInt32 (allList s - balanced allList)

/-- The state in which the loop over `subset_l` starts. -/
def relabInit (table : Mlt n (Fin nb)) (allList : Fin nb → Nat) : Relab n nb where
  target := table.idSrv
  load := relativeLoad allList
  subsetL := managerSortSubset
    ((List.finRange nb).filter (fun s => 0 < relativeLoad allList s))
    (relativeLoad allList)
  subsetS := (List.finRange nb).filter (fun s => relativeLoad allList s < 0)
  subsetSrv := []

/-- Give the entry `e`, counted for server `l`, to server `s`. -/
def moveEntry (globalList : Fin n → Nat) (l s : Fin nb) (st : Relab n nb)
    (e : Fin n) : Relab n nb :=
  let load := Function.update st.load s (toInt32 (st.load s + globalList e))
  { st with
    target := Function.update st.target e s
    load := Function.update load l (toInt32 (load l - globalList e)) }

/-- The goal of a turn: what `l` has too much or what `s` has too little. -/
def turnGoal (st : Relab n nb) (l s : Fin nb) : Int :=
  if ((st.load s).natAbs : Int) < st.load l then (st.load s).natAbs else st.load l

/-- One turn of the inner loop up to the tests on the two loads. -/
def relabTurn (globalList : Fin n → Nat) (l s : Fin nb) (st : Relab n nb) :
    Relab n nb :=
  let r := managerBalanceLoad globalList 0 st.subsetSrv (turnGoal st l s)
  r.2.foldl (moveEntry globalList l s) { st with subsetSrv := r.1 }

/-- One turn, and the removal of `srv_in_s` from S once it is filled up. -/
def relabServe (globalList : Fin n → Nat) (l s : Fin nb) (idxInS : Nat)
    (st : Relab n nb) : Relab n nb :=
  let st := relabTurn globalList l s st
  if 0 ≤ st.load s then { st with subsetS := swapRemove st.subsetS idxInS } else st

/-- The inner loop over `subset_s`, at index `idxInS`, for the server `l` at
index `idxInL` of `subset_l`. -/
def relabLoopS (globalList : Fin n → Nat) (l : Fin nb) (idxInL : Nat) :
    Nat → Nat → Relab n nb → Relab n nb
  | 0, _, st => st
  | fuel + 1, idxInS, st =>
      match st.subsetS[idxInS]? with
      | none => st
      | some s =>
          let st := relabServe globalList l s idxInS st
          -- remove srv_in_l from L, and break
          if st.load l ≤ 0
          then { st with subsetL := swapRemove st.subsetL idxInL }
          else relabLoopS globalList l idxInL fuel (idxInS + 1) st

/-- Append the entries of `l` to `subset_srv`, which is never emptied, and sort
`subset_s`. -/
def relabFill (table : Mlt n (Fin nb)) (l : Fin nb) (st : Relab n nb) : Relab n nb :=
  { st with
    subsetSrv := st.subsetSrv ++
      (List.finRange n).filter (fun e => table.idSrv e = l)
    subsetS := managerSortSubset st.subsetS st.load }

/-- The outer loop over `subset_l`, at index `idxInL`. -/
def relabLoopL (table : Mlt n (Fin nb)) (globalList : Fin n → Nat) :
    Nat → Nat → Relab n nb → Relab n nb
  | 0, _, st => st
  | fuel + 1, idxInL, st =>
      match st.subsetL[idxInL]? with
      | none => st
      | some l =>
          let st := relabFill table l st
          relabLoopL table globalList fuel (idxInL + 1)
            (relabLoopS globalList l idxInL st.subsetS.length 0 st)

/-- The state after both loops. -/
def relabRun (table : Mlt n (Fin nb)) (globalList : Fin n → Nat)
    (allList : Fin nb → Nat) : Relab n nb :=
  let st := relabInit table allList
  relabLoopL table globalList st.subsetL.length 0 st

/-- Write `target` into the table where the server changes. -/
def relabWrite (target : Fin n → Fin nb) (table : Mlt n (Fin nb)) (e : Fin n) :
    Mlt n (Fin nb) :=
  if table.idSrv e ≠ target e
  then table.updateEntry e (target e) (table.nVer e + 1) false else table

/-- `manager_calculate_relab`: the table it leaves behind. -/
def managerCalculateRelabTable (table : Mlt n (Fin nb)) (globalList : Fin n → Nat)
    (allList : Fin nb → Nat) : Mlt n (Fin nb) :=
  (List.finRange n).foldl (relabWrite (relabRun table globalList allList).target) table

/-! ## The table after the call -/

/-- Rows before an index of the final loop are written, the others are not. -/
private theorem relabWrite_foldl (target : Fin n → Fin nb) (l : List (Fin n))
    (hl : l.Nodup) (table : Mlt n (Fin nb)) (e : Fin n) :
    ((l.foldl (relabWrite target) table).idSrv e =
        if e ∈ l then target e else table.idSrv e) ∧
      ((l.foldl (relabWrite target) table).nVer e =
        if e ∈ l ∧ table.idSrv e ≠ target e then table.nVer e + 1
        else table.nVer e) := by
  induction l generalizing table with
  | nil => simp
  | cons i l ih =>
      rw [List.nodup_cons] at hl
      obtain ⟨hsrv, hver⟩ := ih hl.2 (relabWrite target table i)
      rw [List.foldl_cons, hsrv, hver]
      by_cases hei : e = i
      · subst hei
        by_cases ht : table.idSrv e = target e <;>
          simp [relabWrite, hl.1, ht]
      · have hkeep : (relabWrite target table i).idSrv e = table.idSrv e ∧
            (relabWrite target table i).nVer e = table.nVer e := by
          unfold relabWrite
          split <;> simp [hei]
        simp [hkeep, hei]

theorem managerCalculateRelab_idSrv (table : Mlt n (Fin nb))
    (globalList : Fin n → Nat) (allList : Fin nb → Nat) (e : Fin n) :
    (managerCalculateRelabTable table globalList allList).idSrv e =
      (relabRun table globalList allList).target e := by
  have h := (relabWrite_foldl (relabRun table globalList allList).target
    (List.finRange n) (List.nodup_finRange n) table e).1
  simpa [managerCalculateRelabTable] using h

/-- The version of a row is raised by one exactly where its server changes. -/
theorem managerCalculateRelab_nVer (table : Mlt n (Fin nb))
    (globalList : Fin n → Nat) (allList : Fin nb → Nat) (e : Fin n) :
    (managerCalculateRelabTable table globalList allList).nVer e =
      if table.idSrv e = (managerCalculateRelabTable table globalList allList).idSrv e
      then table.nVer e else table.nVer e + 1 := by
  have h := (relabWrite_foldl (relabRun table globalList allList).target
    (List.finRange n) (List.nodup_finRange n) table e).2
  rw [managerCalculateRelab_idSrv]
  by_cases ht : table.idSrv e = (relabRun table globalList allList).target e <;>
    simpa [managerCalculateRelabTable, ht] using h

end MeDiE.Manager
