import MeDiE.Manager.Loads
import MeDiE.Verified.GreedyTies
import Mathlib.Data.List.Sort

/-!
# `manager_calculate_relab` of `manager_dh.c`

This manager matches loads, not entries: it picks a subset of the loads of a
server's entries and then gives away every entry of that server whose load is
one of them.  The picked loads and the moved entries agree exactly when the
selection does not run out of room in the middle of a group of equal loads.
-/

namespace MeDiE.ManagerDh

open MeDiE.Manager
open MeDiE.Table
open MeDiE.Verified.Greedy
open MeDiE.Verified.SwapRemove
open MeDiE.Verified.Word32

variable {n nb : Nat}

/-- `comparator`, for a sort in decreasing order. -/
def comparator (a b : Int) : Int := toInt32 (b - a)

/-- `qsort` with `comparator`; equal `int`s cannot be told apart afterwards. -/
def qsort (list : List Int) : List Int :=
  list.insertionSort (fun a b => comparator a b ≤ 0)

/-- The selection loop of `manager_balance_load`, from a partial `sum` on, and
`list[last_index]` when it is over. -/
def balanceLoop (goalLoad : Int) : Int → Option Int → List Int → BalanceResult Int
  | sum, last, [] => ⟨[], sum, last⟩
  | sum, last, v :: list =>
      if toInt32 (sum + v) ≤ goalLoad then
        if v = 0 then ⟨[], sum, last⟩
        else
          let r := balanceLoop goalLoad (toInt32 (sum + v)) last list
          { r with subset := v :: r.subset }
      else balanceLoop goalLoad sum (some v) list

/-- `manager_balance_load`: the list as sorted in place, and the subset. -/
def managerBalanceLoad (currentLoad : Int) (list : List Int) (goalLoad : Int) :
    List Int × List Int :=
  let list := qsort list
  let r := balanceLoop goalLoad currentLoad none list
  match r.lastIndex with
  | some v =>
      if (toInt32 (r.sum + v)).natAbs < r.sum.natAbs then (list, r.subset ++ [v])
      else (list, r.subset)
  | none => (list, r.subset)

/-- `find_index`, over the array `load`. -/
def findIndex (value : Int) (load : Fin nb → Int) : Option (Fin nb) :=
  (List.finRange nb).find? (fun s => load s = value)

/-- `all[srv]`, an `int` summing `uint32_t` values. -/
def all (table : Mlt n (Fin nb)) (globalList : Fin n → Nat) (srv : Fin nb) : Int :=
  (List.finRange n).foldl
    (fun sum e => if table.idSrv e = srv then toInt32 (sum + globalList e) else sum) 0

/-- `sum_all`. -/
def sumAll (globalList : Fin n → Nat) : Int :=
  (List.finRange n).foldl (fun sum e => toInt32 (sum + globalList e)) 0

/-- `balanced = (sum_all * w_factor) / sum_w`. -/
def balanced (nb : Nat) (globalList : Fin n → Nat) : Int :=
  (sumAll globalList * wFactor).tdiv (wFactor * nb)

/-- `load[srv]`, the relative load of a server. -/
def load (table : Mlt n (Fin nb)) (globalList : Fin n → Nat) (srv : Fin nb) : Int :=
  toInt32 (all table globalList srv - balanced nb globalList)

/-- The arrays that the matching of servers works on: `subset_l` holds loads. -/
structure Matching (nb : Nat) where
  target : Fin nb → Fin nb
  subsetL : List Int

/-- One load given to server `s`: the first server with that load is the one
that gives, and the load is removed from `subset_l`. -/
def matchLoad (load : Fin nb → Int) (s : Fin nb) (st : Matching nb) (c : Int) :
    Matching nb where
  target := match findIndex c load with
    | some index => Function.update st.target index s
    | none => st.target
  subsetL := match st.subsetL.findIdx? (· = c) with
    | some i => swapRemove st.subsetL i
    | none => st.subsetL

/-- The loads to give to server `s` of `subset_s`. -/
def matchServer (load : Fin nb → Int) (st : Matching nb) (s : Fin nb) : Matching nb :=
  let r := managerBalanceLoad (load s) st.subsetL 0
  r.2.foldl (matchLoad load s) { st with subsetL := r.1 }

/-- `target`, the idle server each server gives load to, or the server itself. -/
def targetOf (load : Fin nb → Int) : Fin nb → Fin nb :=
  (((List.finRange nb).filter (fun s => load s < 0)).foldl (matchServer load)
    { target := id
      subsetL := ((List.finRange nb).filter (fun s => 0 < load s)).map load }).target

/-- `subset_srv`, the loads of the entries of a server, as `int`s. -/
def subsetSrv (table : Mlt n (Fin nb)) (globalList : Fin n → Nat) (srv : Fin nb) :
    List Int :=
  ((List.finRange n).filter (fun e => table.idSrv e = srv)).map
    (fun e => toInt32 (globalList e))

/-- `subset_sai`, the loads that `manager_balance_load` picks for a server. -/
def subsetSai (table : Mlt n (Fin nb)) (globalList : Fin n → Nat) (goalLoad : Int)
    (srv : Fin nb) : List Int :=
  (managerBalanceLoad 0 (subsetSrv table globalList srv) goalLoad).2

/-- The loop over all entries for one picked load. -/
def giveLoad (globalList : Fin n → Nat) (srv target : Fin nb)
    (table : Mlt n (Fin nb)) (sai : Int) : Mlt n (Fin nb) :=
  (List.finRange n).foldl (fun table e =>
    if globalList e = toUInt32 sai ∧ table.idSrv e = srv
    then table.updateEntry e target (table.nVer e + 1) false else table) table

/-- The final loop of `manager_calculate_relab`, for one server. -/
def giveServer (globalList : Fin n → Nat) (load : Fin nb → Int)
    (target : Fin nb → Fin nb) (table : Mlt n (Fin nb)) (srv : Fin nb) :
    Mlt n (Fin nb) :=
  if 0 < load srv ∧ target srv ≠ srv then
    (subsetSai table globalList (load srv) srv).foldl
      (giveLoad globalList srv (target srv)) table
  else table

/-- `manager_calculate_relab`: the table it leaves behind. -/
def managerCalculateRelabTable (table : Mlt n (Fin nb)) (globalList : Fin n → Nat) :
    Mlt n (Fin nb) :=
  (List.finRange nb).foldl
    (giveServer globalList (load table globalList) (targetOf (load table globalList)))
    table

/-- The table when it is the turn of `srv` in the final loop. -/
def tableAt (table : Mlt n (Fin nb)) (globalList : Fin n → Nat) (srv : Fin nb) :
    Mlt n (Fin nb) :=
  ((List.finRange nb).take srv).foldl
    (giveServer globalList (load table globalList) (targetOf (load table globalList)))
    table

end MeDiE.ManagerDh
