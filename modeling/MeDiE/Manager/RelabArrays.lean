import MeDiE.Manager.BalanceLoadArrays

/-!
# `manager_calculate_relab` on its arrays

The function of `manager_v2_indedh.c` and `manager_windowed.c` with its six arrays and their
size counters, every access checked.  The run is `none` as soon as an access is outside of an
array, a division is by zero, `abs` has no value, `mlt_update_entry` refuses a server, or the
loops do not end.  Memory from `malloc` holds anything; `subset_l` and `subset_s` come from
`calloc`.
-/

namespace MeDiE.Manager

open MeDiE.Table
open MeDiE.Verified.Cells
open MeDiE.Verified.CountedArray
open MeDiE.Verified.Word32

variable {n nb : Nat}

/-- What `malloc` returns, `N_entry` or `nb` cells each. -/
structure RelabMemory (n nb : Nat) where
  target : List Int
  load : List Int
  set : List Int
  subsetSrv : List Int
  length_target : target.length = n
  length_load : load.length = nb
  length_set : set.length = n
  length_subsetSrv : subsetSrv.length = n

/-- The visit of one server of `subset_l`: the server that is taken, and `size_srv` when its
entries are in `subset_srv`. -/
structure Visit where
  srv : Int
  sizeSrv : Int
deriving DecidableEq

/-- The arrays, their size counters, and a record of the visits, which the program does not
keep. -/
structure RelabArrays where
  target : List Int
  load : List Int
  subsetL : List Int
  sizeL : Int
  subsetS : List Int
  sizeS : Int
  subsetSrv : List Int
  sizeSrv : Int
  set : List Int
  visits : List Visit
deriving DecidableEq

/-- The loop that copies the servers of the table into `target`. -/
def initTarget (table : Mlt n (Fin nb)) (target : List Int) : Option (List Int) :=
  (List.finRange n).foldlM
    (fun target (e : Fin n) => writeCell target (e : Nat) ((table.idSrv e : Nat) : Int))
    target

/-- One round of the loop that computes the relative loads and fills S and L. -/
def initLoad (allList : Fin nb → Nat) (arrays : RelabArrays) (srv : Fin nb) :
    Option RelabArrays := do
  let cells ← writeCell arrays.load (srv : Nat) (relativeLoad allList srv)
  let load ← readCell cells (srv : Nat)
  if 0 < load then
    let subsetL ← writeCell arrays.subsetL arrays.sizeL (srv : Nat)
    some { arrays with load := cells, subsetL, sizeL := arrays.sizeL + 1 }
  else if load < 0 then
    let subsetS ← writeCell arrays.subsetS arrays.sizeS (srv : Nat)
    some { arrays with load := cells, subsetS, sizeS := arrays.sizeS + 1 }
  else some { arrays with load := cells }

/-- Everything before the loop over `subset_l`. -/
def relabInitArrays (table : Mlt n (Fin nb)) (allList : Fin nb → Nat)
    (memory : RelabMemory n nb) : Option RelabArrays := do
  let target ← initTarget table memory.target
  if nb = 0 then none
  else
    let arrays ← (List.finRange nb).foldlM (initLoad allList)
      { target, load := memory.load, subsetL := List.replicate nb 0, sizeL := 0,
        subsetS := List.replicate nb 0, sizeS := 0, subsetSrv := memory.subsetSrv,
        sizeSrv := 0, set := memory.set, visits := [] }
    let sorted ← managerSortSubsetArrays ⟨arrays.subsetL, arrays.load⟩ arrays.sizeL
    some { arrays with subsetL := sorted.subset }

/-- One round of the loop that appends the entries of `subset_l[idx_in_l]` to
`subset_srv`. -/
def fillSrv (table : Mlt n (Fin nb)) (idxInL : Int) (arrays : RelabArrays) (e : Fin n) :
    Option RelabArrays := do
  let l ← readCell arrays.subsetL idxInL
  if ((table.idSrv e : Nat) : Int) = l then
    let subsetSrv ← writeCell arrays.subsetSrv arrays.sizeSrv (e : Nat)
    some { arrays with subsetSrv, sizeSrv := arrays.sizeSrv + 1 }
  else some arrays

/-- Fill `subset_srv`, sort `subset_s`, and put the visit on record. -/
def relabFillArrays (table : Mlt n (Fin nb)) (idxInL : Int) (arrays : RelabArrays) :
    Option RelabArrays := do
  let arrays ← (List.finRange n).foldlM (fillSrv table idxInL) arrays
  let sorted ← managerSortSubsetArrays ⟨arrays.subsetS, arrays.load⟩ arrays.sizeS
  let l ← readCell arrays.subsetL idxInL
  some { arrays with
    subsetS := sorted.subset, visits := arrays.visits ++ [⟨l, arrays.sizeSrv⟩] }

/-- The load of the server at a position of `subset_l` or `subset_s`. -/
def loadAt (subset load : List Int) (idx : Int) : Option Int := do
  let srv ← readCell subset idx
  readCell load srv

/-- The goal of a turn. -/
def turnGoalArrays (idxInL idxInS : Int) (arrays : RelabArrays) : Option Int := do
  let loadS ← loadAt arrays.subsetS arrays.load idxInS
  let absS ← cAbs loadS
  let loadL ← loadAt arrays.subsetL arrays.load idxInL
  if absS < loadL then some absS else some loadL

/-- One round of the loop over `set`. -/
def moveEntryArrays (globalList : Fin n → Nat) (idxInL idxInS i : Int)
    (arrays : RelabArrays) : Option RelabArrays := do
  let entry ← readCell arrays.set i
  let s ← readCell arrays.subsetS idxInS
  let target ← writeCell arrays.target entry s
  let weight ← readCell (globalCells globalList) entry
  let loadS ← readCell arrays.load s
  let load ← writeCell arrays.load s (toInt32 (loadS + weight))
  let l ← readCell arrays.subsetL idxInL
  let loadL ← readCell load l
  let load ← writeCell load l (toInt32 (loadL - weight))
  some { arrays with target, load }

/-- The loop over `set`, with the number of rounds that are left. -/
def moveLoopArrays (globalList : Fin n → Nat) (idxInL idxInS : Int) :
    Nat → Int → RelabArrays → Option RelabArrays
  | 0, _, arrays => some arrays
  | rounds + 1, i, arrays => do
      let arrays ← moveEntryArrays globalList idxInL idxInS i arrays
      moveLoopArrays globalList idxInL idxInS rounds (i + 1) arrays

/-- One turn of the inner loop up to the tests on the two loads. -/
def relabTurnArrays (globalList : Fin n → Nat) (idxInL idxInS : Int)
    (arrays : RelabArrays) : Option RelabArrays := do
  let goal ← turnGoalArrays idxInL idxInS arrays
  let (subsetSrv, set, sizeSet) ← managerBalanceLoadArrays globalList 0 arrays.subsetSrv
    arrays.sizeSrv goal arrays.set
  moveLoopArrays globalList idxInL idxInS sizeSet.toNat 0 { arrays with subsetSrv, set }

/-- One turn, and the removal of `srv_in_s` from S once it is filled up. -/
def relabServeArrays (globalList : Fin n → Nat) (idxInL idxInS : Int)
    (arrays : RelabArrays) : Option RelabArrays := do
  let arrays ← relabTurnArrays globalList idxInL idxInS arrays
  let loadS ← loadAt arrays.subsetS arrays.load idxInS
  if 0 ≤ loadS then
    let subsetS ← fillGap arrays.subsetS arrays.sizeS idxInS
    some { arrays with subsetS, sizeS := arrays.sizeS - 1 }
  else some arrays

/-- The inner loop over `subset_s`. -/
def relabLoopSArrays (globalList : Fin n → Nat) (idxInL : Int) :
    Nat → Int → RelabArrays → Option RelabArrays
  | 0, _, _ => none
  | fuel + 1, idxInS, arrays =>
      if idxInS < arrays.sizeS then do
        let arrays ← relabServeArrays globalList idxInL idxInS arrays
        let loadL ← loadAt arrays.subsetL arrays.load idxInL
        -- remove srv_in_l from L, and break
        if loadL ≤ 0 then
          let subsetL ← fillGap arrays.subsetL arrays.sizeL idxInL
          some { arrays with subsetL, sizeL := arrays.sizeL - 1 }
        else relabLoopSArrays globalList idxInL fuel (idxInS + 1) arrays
      else some arrays

/-- The outer loop over `subset_l`. -/
def relabLoopLArrays (table : Mlt n (Fin nb)) (globalList : Fin n → Nat) :
    Nat → Int → RelabArrays → Option RelabArrays
  | 0, _, _ => none
  | fuel + 1, idxInL, arrays =>
      if idxInL < arrays.sizeL then do
        let arrays ← relabFillArrays table idxInL arrays
        let arrays ← relabLoopSArrays globalList idxInL (nb + 1) 0 arrays
        relabLoopLArrays table globalList fuel (idxInL + 1) arrays
      else some arrays

/-- One round of the loop that writes `target` into the table. -/
def relabWriteArrays (target : List Int) (table : Mlt n (Fin nb)) (e : Fin n) :
    Option (Mlt n (Fin nb)) := do
  let srv ← readCell target (e : Nat)
  if ((table.idSrv e : Nat) : Int) = srv then some table
  else if h : 0 ≤ srv ∧ srv.toNat < nb then
    some (table.updateEntry e ⟨srv.toNat, h.2⟩ (table.nVer e + 1) false)
  else none

/-- `manager_calculate_relab`: the arrays when they are freed, and the table. -/
def managerCalculateRelabArrays (table : Mlt n (Fin nb)) (globalList : Fin n → Nat)
    (allList : Fin nb → Nat) (memory : RelabMemory n nb) :
    Option (RelabArrays × Mlt n (Fin nb)) := do
  let arrays ← relabInitArrays table allList memory
  let arrays ← relabLoopLArrays table globalList (nb + 1) 0 arrays
  let table ← (List.finRange n).foldlM (relabWriteArrays arrays.target) table
  some (arrays, table)

end MeDiE.Manager
