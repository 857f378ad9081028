import MeDiE.Manager.RelabArrays
import MeDiE.Manager.RelabBooks

/-!
# `manager_calculate_relab` stays inside of its arrays

The arrays hold the lists of the model of `MeDiE.Manager.Relab` in every state of the loops.
`subset_srv` is never emptied and has room for every entry once; it is not overrun because
the servers that are visited are different, and they are different because a removal from
`subset_l` moves its last server to a position that the loop has passed.
-/

namespace MeDiE.Manager

open MeDiE.Table
open MeDiE.Verified.Cells
open MeDiE.Verified.CountedArray
open MeDiE.Verified.Greedy
open MeDiE.Verified.SwapRemove
open MeDiE.Verified.Word32

variable {n nb : Nat} {table : Mlt n (Fin nb)} {globalList : Fin n → Nat}
  {allList : Fin nb → Nat}

/-- The arrays hold the state of the model, each in the memory it was given. -/
structure Stores (arrays : RelabArrays) (st : Relab n nb) : Prop where
  target : arrays.target = List.ofFn fun e => ((st.target e : Nat) : Int)
  load : arrays.load = List.ofFn st.load
  subsetL : Counted arrays.subsetL arrays.sizeL (indices st.subsetL)
  subsetS : Counted arrays.subsetS arrays.sizeS (indices st.subsetS)
  subsetSrv : Counted arrays.subsetSrv arrays.sizeSrv (indices st.subsetSrv)
  length_subsetL : arrays.subsetL.length = nb
  length_subsetS : arrays.subsetS.length = nb
  length_subsetSrv : arrays.subsetSrv.length = n
  length_set : arrays.set.length = n

/-! ## Entering the loops -/

theorem initTarget_eq (table : Mlt n (Fin nb)) (target : List Int) (hlen : target.length = n) :
    initTarget table target =
      some (List.ofFn fun e => ((table.idSrv e : Nat) : Int)) := by
  obtain ⟨cells, hrun, hlen', hread⟩ := exists_foldlM
    (f := fun target (e : Fin n) => writeCell target (e : Nat) ((table.idSrv e : Nat) : Int))
    (R := fun done cells => cells.length = n ∧
      ∀ e ∈ done, readCell cells ((e : Nat) : Int) = some ((table.idSrv e : Nat) : Int))
    (List.finRange n) (by
      rintro done e rest - cells ⟨hlen, hread⟩
      obtain ⟨cells', hwrite⟩ : ∃ cells', writeCell cells ((e : Nat) : Int)
          ((table.idSrv e : Nat) : Int) = some cells' :=
        exists_writeCell (by omega) (by omega) _
      refine ⟨cells', hwrite, (length_writeCell hwrite).trans hlen, fun e' he' => ?_⟩
      rw [readCell_writeCell hwrite]
      split
      · rename_i heq
        have heq' : e' = e := Fin.ext (by exact_mod_cast heq)
        rw [heq']
      · rename_i hne
        refine hread e' ((List.mem_append.mp he').resolve_right fun hmem => hne ?_)
        rw [List.mem_singleton.mp hmem])
    target ⟨hlen, by simp⟩
  rw [initTarget, hrun, eq_ofFn hlen' fun e => hread e (List.mem_finRange e)]

/-- The arrays when the servers of `done` have their loads. -/
structure LoadsStored (allList : Fin nb → Nat) (start : RelabArrays) (done : List (Fin nb))
    (arrays : RelabArrays) : Prop where
  load : ∀ s ∈ done, readCell arrays.load ((s : Nat) : Int) = some (relativeLoad allList s)
  length_load : arrays.load.length = nb
  subsetL : Counted arrays.subsetL arrays.sizeL
    (indices (done.filter fun s => 0 < relativeLoad allList s))
  length_subsetL : arrays.subsetL.length = nb
  subsetS : Counted arrays.subsetS arrays.sizeS
    (indices (done.filter fun s => relativeLoad allList s < 0))
  length_subsetS : arrays.subsetS.length = nb
  kept : arrays.target = start.target ∧ arrays.subsetSrv = start.subsetSrv ∧
    arrays.sizeSrv = start.sizeSrv ∧ arrays.set = start.set ∧ arrays.visits = start.visits

/-- The load of the next server is written. -/
theorem LoadsStored.write {start arrays : RelabArrays} {done : List (Fin nb)}
    (h : LoadsStored allList start done arrays) (s : Fin nb) :
    ∃ cells, writeCell arrays.load ((s : Nat) : Int) (relativeLoad allList s) = some cells ∧
      cells.length = nb ∧ ∀ t ∈ done ++ [s],
        readCell cells ((t : Nat) : Int) = some (relativeLoad allList t) := by
  have hlen := h.length_load
  obtain ⟨cells, hwrite⟩ : ∃ cells, writeCell arrays.load ((s : Nat) : Int)
      (relativeLoad allList s) = some cells :=
    exists_writeCell (by omega) (by omega) _
  refine ⟨cells, hwrite, (length_writeCell hwrite).trans hlen, fun t ht => ?_⟩
  rw [readCell_writeCell hwrite]
  split
  · rename_i heq
    rw [show t = s from Fin.ext (by exact_mod_cast heq)]
  · rename_i hne
    refine h.load t ((List.mem_append.mp ht).resolve_right fun hmem => hne ?_)
    rw [List.mem_singleton.mp hmem]

theorem LoadsStored.round {start arrays : RelabArrays} {done : List (Fin nb)}
    (h : LoadsStored allList start done arrays) (s : Fin nb) (hlen : done.length < nb) :
    ∃ arrays', initLoad allList arrays s = some arrays' ∧
      LoadsStored allList start (done ++ [s]) arrays' := by
  have hpos := (List.filter_sublist (l := done)
    (p := fun s => 0 < relativeLoad allList s)).length_le
  have hneg := (List.filter_sublist (l := done)
    (p := fun s => relativeLoad allList s < 0)).length_le
  obtain ⟨cells, hwrite, hcellsLen, hread⟩ := h.write s
  have hself := hread s (by simp)
  rw [initLoad, hwrite]
  simp only [Option.bind_eq_bind, Option.bind_some, hself]
  by_cases hover : 0 < relativeLoad allList s
  · have hnot : ¬ relativeLoad allList s < 0 := by omega
    obtain ⟨subsetL, hpush, hpushLen, hcount⟩ := h.subsetL.push
      (by rw [h.length_subsetL, length_indices]; omega) ((s : Nat) : Int)
    rw [if_pos hover, hpush]
    refine ⟨_, rfl, ?_⟩
    exact
      { load := hread
        length_load := hcellsLen
        subsetL := by simpa [hover, indices] using hcount
        length_subsetL := hpushLen.trans h.length_subsetL
        subsetS := by simpa [hnot] using h.subsetS
        length_subsetS := h.length_subsetS
        kept := h.kept }
  · rw [if_neg hover]
    by_cases hunder : relativeLoad allList s < 0
    · obtain ⟨subsetS, hpush, hpushLen, hcount⟩ := h.subsetS.push
        (by rw [h.length_subsetS, length_indices]; omega) ((s : Nat) : Int)
      rw [if_pos hunder, hpush]
      refine ⟨_, rfl, ?_⟩
      exact
        { load := hread
          length_load := hcellsLen
          subsetL := by simpa [hover] using h.subsetL
          length_subsetL := h.length_subsetL
          subsetS := by simpa [hunder, indices] using hcount
          length_subsetS := hpushLen.trans h.length_subsetS
          kept := h.kept }
    · rw [if_neg hunder]
      refine ⟨_, rfl, ?_⟩
      exact
        { load := hread
          length_load := hcellsLen
          subsetL := by simpa [hover] using h.subsetL
          length_subsetL := h.length_subsetL
          subsetS := by simpa [hunder] using h.subsetS
          length_subsetS := h.length_subsetS
          kept := h.kept }

/-- The loops start on the arrays of the model. -/
theorem relabInitArrays_stores (table : Mlt n (Fin nb)) (allList : Fin nb → Nat)
    (hnb : 0 < nb) (memory : RelabMemory n nb) :
    ∃ arrays, relabInitArrays table allList memory = some arrays ∧
      Stores arrays (relabInit table allList) ∧ arrays.visits = [] := by
  obtain ⟨arrays, hrun, hstored⟩ := exists_foldlM (f := initLoad allList)
    (R := LoadsStored allList
      { target := List.ofFn fun e => ((table.idSrv e : Nat) : Int), load := memory.load,
        subsetL := List.replicate nb 0, sizeL := 0, subsetS := List.replicate nb 0,
        sizeS := 0, subsetSrv := memory.subsetSrv, sizeSrv := 0, set := memory.set,
        visits := [] })
    (List.finRange nb) (by
      intro done s rest hlist arrays hstored
      refine hstored.round s ?_
      have hlen := congrArg List.length hlist
      rw [List.length_finRange, List.length_append, List.length_cons] at hlen
      omega)
    _
    { load := by simp
      length_load := memory.length_load
      subsetL := Counted.nil _
      length_subsetL := List.length_replicate
      subsetS := Counted.nil _
      length_subsetS := List.length_replicate
      kept := ⟨rfl, rfl, rfl, rfl, rfl⟩ }
  obtain ⟨htarget, hsubsetSrv, hsizeSrv, hset, hvisits⟩ := hstored.kept
  have hload := eq_ofFn hstored.length_load fun s => hstored.load s (List.mem_finRange s)
  have hmin : ∀ s ∈ (List.finRange nb).filter (fun s => 0 < relativeLoad allList s),
      relativeLoad allList s ≠ -2 ^ 31 := by
    intro s hs
    have hpos : 0 < relativeLoad allList s := by simpa using (List.mem_filter.mp hs).2
    omega
  obtain ⟨cells, hsort, hlen, hcount⟩ :=
    managerSortSubsetArrays_counted hstored.subsetL (relativeLoad allList) hmin
  refine ⟨{ arrays with subsetL := cells }, ?_, ?_, hvisits⟩
  · rw [relabInitArrays, initTarget_eq table _ memory.length_target]
    simp only [Option.bind_eq_bind, Option.bind_some, if_neg hnb.ne', hrun, hload, hsort]
  · exact
      { target := htarget
        load := hload
        subsetL := hcount
        subsetS := hstored.subsetS
        subsetSrv := by
          rw [hsubsetSrv, hsizeSrv]
          exact Counted.nil _
        length_subsetL := hlen.trans hstored.length_subsetL
        length_subsetS := hstored.length_subsetS
        length_subsetSrv := by rw [hsubsetSrv]; exact memory.length_subsetSrv
        length_set := by rw [hset]; exact memory.length_set }

/-! ## The visit of a server -/

/-- The load of a server of a subset is read inside of both arrays. -/
theorem loadAt_counted {cells : List Int} {size : Int} {subset : List (Fin nb)}
    (h : Counted cells size (indices subset)) (load : Fin nb → Int) {idx : Nat} {s : Fin nb}
    (hget : subset[idx]? = some s) :
    loadAt cells (List.ofFn load) idx = some (load s) := by
  rw [loadAt, h.readCell (getElem?_indices hget)]
  exact readCell_ofFn load s

/-- `subset_srv` receives the entries of the server, as long as there is room for them. -/
theorem fillSrv_stores {arrays : RelabArrays} {st : Relab n nb} (h : Stores arrays st)
    {idxInL : Nat} {l : Fin nb} (hget : st.subsetL[idxInL]? = some l)
    (hroom : (relabFill table l st).subsetSrv.length ≤ n) :
    ∃ arrays', (List.finRange n).foldlM (fillSrv table idxInL) arrays = some arrays' ∧
      Stores arrays' { st with subsetSrv := (relabFill table l st).subsetSrv } ∧
      arrays'.visits = arrays.visits := by
  refine exists_foldlM (f := fillSrv table idxInL)
    (R := fun done arrays' => Stores arrays' { st with
        subsetSrv := st.subsetSrv ++ done.filter fun e => table.idSrv e = l } ∧
      arrays'.visits = arrays.visits)
    (List.finRange n) ?_ arrays ⟨by simpa using h, rfl⟩
  rintro done e rest hlist arrays' ⟨h', hvisits⟩
  rw [fillSrv, h'.subsetL.readCell (getElem?_indices hget)]
  simp only [Option.bind_eq_bind, Option.bind_some]
  by_cases hown : table.idSrv e = l
  · have hfull : st.subsetSrv.length + (done.filter fun e => table.idSrv e = l).length <
        arrays'.subsetSrv.length := by
      rw [relabFill, hlist] at hroom
      simp only [List.length_append, List.filter_append, List.filter_cons, hown,
        decide_true, if_true, List.length_cons] at hroom
      rw [h'.length_subsetSrv]
      omega
    obtain ⟨cells, hpush, hlen, hcount⟩ := h'.subsetSrv.push
      (by simpa [indices] using hfull) ((e : Nat) : Int)
    rw [if_pos (by rw [hown]), hpush]
    refine ⟨_, rfl, ?_, hvisits⟩
    exact { h' with
      subsetSrv := by simpa [hown, indices] using hcount
      length_subsetSrv := hlen.trans h'.length_subsetSrv }
  · rw [if_neg fun heq => hown (Fin.ext (by exact_mod_cast heq))]
    refine ⟨arrays', rfl, ?_, hvisits⟩
    simpa [hown] using h'

/-- The beginning of a visit, with the record of it. -/
theorem relabFillArrays_stores {arrays : RelabArrays} {st : Relab n nb}
    (h : Stores arrays st) {idxInL : Nat} {l : Fin nb}
    (hget : st.subsetL[idxInL]? = some l)
    (hroom : (relabFill table l st).subsetSrv.length ≤ n)
    (hmin : ∀ s ∈ st.subsetS, st.load s ≠ -2 ^ 31) :
    ∃ arrays', relabFillArrays table idxInL arrays = some arrays' ∧
      Stores arrays' (relabFill table l st) ∧
      arrays'.visits = arrays.visits ++ [⟨((l : Nat) : Int), arrays'.sizeSrv⟩] := by
  obtain ⟨arrays', hrun, h', hvisits⟩ := fillSrv_stores h hget hroom
  obtain ⟨cells, hsort, hlen, hcount⟩ := managerSortSubsetArrays_counted h'.subsetS _ hmin
  have hload : arrays'.load = List.ofFn st.load := h'.load
  rw [relabFillArrays, hrun]
  simp only [Option.bind_eq_bind, Option.bind_some, hload, hsort,
    h'.subsetL.readCell (getElem?_indices hget)]
  refine ⟨_, rfl, ?_, by rw [hvisits]⟩
  exact { h' with
    load := rfl
    subsetS := hcount
    length_subsetS := hlen.trans h'.length_subsetS }

/-! ## A turn -/

theorem turnGoalArrays_stores {arrays : RelabArrays} {st : Relab n nb} (h : Stores arrays st)
    {idxInL idxInS : Nat} {l s : Fin nb} (hgetL : st.subsetL[idxInL]? = some l)
    (hgetS : st.subsetS[idxInS]? = some s) (hmin : st.load s ≠ -2 ^ 31) :
    turnGoalArrays idxInL idxInS arrays = some (turnGoal st l s) := by
  have habs : cAbs (st.load s) = some (st.load s).natAbs := if_neg hmin
  rw [turnGoalArrays, h.load, loadAt_counted h.subsetS st.load hgetS,
    loadAt_counted h.subsetL st.load hgetL]
  simp only [Option.bind_eq_bind, Option.bind_some, habs, turnGoal]
  split <;> rfl

/-- One entry is moved. -/
theorem moveEntryArrays_stores (globalList : Fin n → Nat) {arrays : RelabArrays} {st : Relab n nb}
    (h : Stores arrays st) {idxInL idxInS : Nat} {l s : Fin nb}
    (hgetL : st.subsetL[idxInL]? = some l) (hgetS : st.subsetS[idxInS]? = some s)
    {i : Int} {e : Fin n} (hset : readCell arrays.set i = some ((e : Nat) : Int)) :
    ∃ arrays', moveEntryArrays globalList idxInL idxInS i arrays = some arrays' ∧
      Stores arrays' (moveEntry globalList l s st e) ∧ arrays'.set = arrays.set ∧
      arrays'.visits = arrays.visits := by
  have hweight : readCell (globalCells globalList) (e : Nat) = some (globalList e : Int) :=
    readCell_ofFn _ e
  have hupdate : (fun e' => (((Function.update st.target e s) e' : Nat) : Int)) =
      Function.update (fun e' => ((st.target e' : Nat) : Int)) e ((s : Nat) : Int) := by
    funext e'
    simp only [Function.update_apply]
    split <;> rfl
  rw [moveEntryArrays, hset, h.target, h.load, h.subsetS.readCell (getElem?_indices hgetS),
    h.subsetL.readCell (getElem?_indices hgetL)]
  simp only [Option.bind_eq_bind, Option.bind_some, writeCell_ofFn, readCell_ofFn, hweight]
  refine ⟨_, rfl, ?_, rfl, rfl⟩
  exact { h with
    target := by
      dsimp only [moveEntry]
      rw [hupdate]
    load := rfl }

/-- The loop over the cells of `set` behind a prefix moves the entries in them. -/
theorem moveLoopArrays_stores (globalList : Fin n → Nat) (set : List (Fin n))
    (before after : List Int)
    {arrays : RelabArrays} {st : Relab n nb} (h : Stores arrays st) {idxInL idxInS : Nat}
    {l s : Fin nb} (hgetL : st.subsetL[idxInL]? = some l)
    (hgetS : st.subsetS[idxInS]? = some s)
    (hset : arrays.set = before ++ indices set ++ after) :
    ∃ arrays', moveLoopArrays globalList idxInL idxInS set.length before.length arrays =
        some arrays' ∧
      Stores arrays' (set.foldl (moveEntry globalList l s) st) ∧
      arrays'.visits = arrays.visits := by
  induction set generalizing before arrays st with
  | nil => exact ⟨arrays, rfl, h, rfl⟩
  | cons e set ih =>
      have hread : readCell arrays.set before.length = some ((e : Nat) : Int) := by
        simp [hset, indices]
      obtain ⟨arrays', hmove, h', hset', hvisits⟩ :=
        moveEntryArrays_stores globalList h hgetL hgetS hread
      have hnext : (before.length : Int) + 1 = (before ++ [((e : Nat) : Int)]).length := by
        simp
      obtain ⟨arrays'', hrun, h'', hvisits'⟩ := ih (before ++ [((e : Nat) : Int)]) h' hgetL hgetS
        (by rw [hset', hset]; simp [indices])
      refine ⟨arrays'', ?_, h'', hvisits'.trans hvisits⟩
      rw [List.length_cons, moveLoopArrays, hmove, hnext]
      exact hrun

/-- A turn stays inside of the arrays when the loads on offer add up to an `int`. -/
theorem relabTurnArrays_stores (globalList : Fin n → Nat) {arrays : RelabArrays} {st : Relab n nb}
    (h : Stores arrays st) {idxInL idxInS : Nat} {l s : Fin nb}
    (hgetL : st.subsetL[idxInL]? = some l) (hgetS : st.subsetS[idxInS]? = some s)
    (hmin : st.load s ≠ -2 ^ 31) (hfit : total globalList st.subsetSrv < 2 ^ 31) :
    ∃ arrays', relabTurnArrays globalList idxInL idxInS arrays = some arrays' ∧
      Stores arrays' (relabTurn globalList l s st) ∧ arrays'.visits = arrays.visits := by
  have hroom : st.subsetSrv.length ≤ arrays.set.length := by
    have hle := h.subsetSrv.length_le
    rwa [length_indices, h.length_subsetSrv.trans h.length_set.symm] at hle
  obtain ⟨cells, set, sizeSet, hbalance, hlen, hlenSet, hcells, hcountSet⟩ :=
    managerBalanceLoadArrays_counted globalList (turnGoal st l s) st.subsetSrv h.subsetSrv
      hroom hfit
  obtain ⟨rest, hset⟩ := hcountSet.front
  have h' : Stores { arrays with subsetSrv := cells, set := set }
      { st with subsetSrv :=
          (managerBalanceLoad globalList 0 st.subsetSrv (turnGoal st l s)).1 } := by
    refine { h with
      subsetSrv := ?_
      length_subsetSrv := hlen.trans h.length_subsetSrv
      length_set := hlenSet.trans h.length_set }
    exact hcells
  obtain ⟨arrays', hrun, hstores, hvisits⟩ := moveLoopArrays_stores globalList
    (managerBalanceLoad globalList 0 st.subsetSrv (turnGoal st l s)).2 [] rest h' hgetL hgetS
    hset
  refine ⟨arrays', ?_, hstores, hvisits⟩
  rw [relabTurnArrays, turnGoalArrays_stores h hgetL hgetS hmin]
  simp only [Option.bind_eq_bind, Option.bind_some, hbalance]
  rw [hcountSet.size_eq, length_indices, Int.toNat_natCast]
  exact hrun

/-! ## The loops -/

/-- Different entries weigh at most as much as all entries. -/
theorem total_le_sum (globalList : Fin n → Nat) {list : List (Fin n)} (h : list.Nodup) :
    total globalList list ≤ ∑ e, globalList e := by
  rw [total, ← List.sum_toFinset globalList h]
  exact Finset.sum_le_sum_of_subset (Finset.subset_univ _)

theorem LoopInv.load_ne_min (h : LoadBounds globalList allList) {st : Relab n nb}
    (inv : LoopInv table globalList allList st) : ∀ s ∈ st.subsetS, st.load s ≠ -2 ^ 31 := by
  intro s hs
  have hunder := inv.underloaded s (inv.underS s hs)
  have hmean := h.mean_lt
  omega

/-- A server is removed from a subset. -/
theorem fillGap_indices {cells : List Int} {size : Int} {subset : List (Fin nb)}
    (h : Counted cells size (indices subset)) {idx : Nat} (hidx : idx < subset.length) :
    ∃ cells', fillGap cells size idx = some cells' ∧ cells'.length = cells.length ∧
      Counted cells' (size - 1) (indices (swapRemove subset idx)) := by
  have hgap := h.fillGap (i := idx) (by rwa [length_indices])
  rwa [indices, swapRemove_map] at hgap

/-- `srv_in_s` is removed from S. -/
theorem Stores.removeS {arrays : RelabArrays} {st : Relab n nb} (h : Stores arrays st)
    {idxInS : Nat} (hidx : idxInS < st.subsetS.length) :
    ∃ cells, fillGap arrays.subsetS arrays.sizeS idxInS = some cells ∧
      Stores { arrays with subsetS := cells, sizeS := arrays.sizeS - 1 }
        { st with subsetS := swapRemove st.subsetS idxInS } := by
  obtain ⟨cells, hgap, hlen, hcount⟩ := fillGap_indices h.subsetS hidx
  refine ⟨cells, hgap, ?_⟩
  exact { h with
    subsetS := hcount
    length_subsetS := hlen.trans h.length_subsetS }

/-- `srv_in_l` is removed from L. -/
theorem Stores.removeL {arrays : RelabArrays} {st : Relab n nb} (h : Stores arrays st)
    {idxInL : Nat} (hidx : idxInL < st.subsetL.length) :
    ∃ cells, fillGap arrays.subsetL arrays.sizeL idxInL = some cells ∧
      Stores { arrays with subsetL := cells, sizeL := arrays.sizeL - 1 }
        { st with subsetL := swapRemove st.subsetL idxInL } := by
  obtain ⟨cells, hgap, hlen, hcount⟩ := fillGap_indices h.subsetL hidx
  refine ⟨cells, hgap, ?_⟩
  exact { h with
    subsetL := hcount
    length_subsetL := hlen.trans h.length_subsetL }

/-- A turn, and the removal of the server that is filled up. -/
theorem relabServeArrays_stores (h : LoadBounds globalList allList) {arrays : RelabArrays}
    {st : Relab n nb} (hstores : Stores arrays st)
    (inv : LoopInv table globalList allList st) {idxInL idxInS : Nat} {l s : Fin nb}
    (hgetL : st.subsetL[idxInL]? = some l) (hgetS : st.subsetS[idxInS]? = some s) :
    ∃ arrays', relabServeArrays globalList idxInL idxInS arrays = some arrays' ∧
      Stores arrays' (relabServe globalList l s idxInS st) ∧
      arrays'.visits = arrays.visits := by
  have hfit := total_le_sum globalList inv.srvNodup
  have hglobal := h.global_lt
  obtain ⟨arrays', hturn, hstores', hvisits⟩ := relabTurnArrays_stores globalList hstores
    hgetL hgetS
    (inv.load_ne_min h s (List.mem_of_getElem? hgetS)) (by omega)
  obtain ⟨_, hsubsetS, _⟩ := relabTurn_frame globalList l s st
  have hload : loadAt arrays'.subsetS arrays'.load idxInS =
      some ((relabTurn globalList l s st).load s) := by
    rw [hstores'.load]
    exact loadAt_counted hstores'.subsetS _ (hsubsetS ▸ hgetS)
  rw [relabServeArrays, hturn, relabServe]
  simp only [Option.bind_eq_bind, Option.bind_some, hload]
  by_cases hfull : 0 ≤ (relabTurn globalList l s st).load s
  · have hidx : idxInS < (relabTurn globalList l s st).subsetS.length := by
      rw [hsubsetS]
      exact (List.getElem?_eq_some_iff.mp hgetS).1
    obtain ⟨cells, hgap, hremoved⟩ := hstores'.removeS hidx
    rw [if_pos hfull, if_pos hfull, hgap]
    exact ⟨_, rfl, hremoved, hvisits⟩
  · rw [if_neg hfull, if_neg hfull]
    exact ⟨arrays', rfl, hstores', hvisits⟩

theorem length_relabServe_subsetS_le (globalList : Fin n → Nat) (l s : Fin nb) (idxInS : Nat)
    (st : Relab n nb) :
    (relabServe globalList l s idxInS st).subsetS.length ≤ st.subsetS.length := by
  obtain ⟨_, hsubsetS, _⟩ := relabTurn_frame globalList l s st
  unfold relabServe
  dsimp only
  split
  · dsimp only
    rw [length_swapRemove, hsubsetS]
    omega
  · rw [hsubsetS]

theorem length_relabLoopS_subsetL_le (globalList : Fin n → Nat) (l : Fin nb)
    (idxInL fuel idxInS : Nat) (st : Relab n nb) :
    (relabLoopS globalList l idxInL fuel idxInS st).subsetL.length ≤ st.subsetL.length := by
  rcases relabLoopS_subsetL globalList l idxInL fuel idxInS st with heq | heq
  · rw [heq]
  · rw [heq, length_swapRemove]
    exact Nat.sub_le _ _

/-- The inner loop, with fuel to see that it is over. -/
theorem relabLoopSArrays_stores (h : LoadBounds globalList allList) {l : Fin nb}
    (hl : mean allList < allList l) {idxInL : Nat} (fuel rounds : Nat) (hfuel : rounds < fuel)
    (idxInS : Nat) {arrays : RelabArrays} {st : Relab n nb} (hstores : Stores arrays st)
    (inv : LoopInv table globalList allList st) (hgetL : st.subsetL[idxInL]? = some l)
    (hrounds : st.subsetS.length ≤ idxInS + rounds) :
    ∃ arrays', relabLoopSArrays globalList idxInL fuel idxInS arrays = some arrays' ∧
      Stores arrays' (relabLoopS globalList l idxInL rounds idxInS st) ∧
      arrays'.visits = arrays.visits := by
  induction rounds generalizing fuel idxInS arrays st with
  | zero =>
      obtain ⟨fuel, rfl⟩ : ∃ k, fuel = k + 1 := ⟨fuel - 1, by omega⟩
      have hover : ¬ (idxInS : Int) < arrays.sizeS := by
        rw [hstores.subsetS.size_eq, length_indices]
        omega
      rw [relabLoopSArrays, if_neg hover]
      exact ⟨arrays, rfl, hstores, rfl⟩
  | succ rounds ih =>
      obtain ⟨fuel, rfl⟩ : ∃ k, fuel = k + 1 := ⟨fuel - 1, by omega⟩
      rw [relabLoopSArrays, relabLoopS]
      cases hgetS : st.subsetS[idxInS]? with
      | none =>
          have hover : ¬ (idxInS : Int) < arrays.sizeS := by
            rw [hstores.subsetS.size_eq, length_indices]
            have hle := List.getElem?_eq_none_iff.mp hgetS
            omega
          rw [if_neg hover]
          exact ⟨arrays, rfl, hstores, rfl⟩
      | some s =>
          have hidx := (List.getElem?_eq_some_iff.mp hgetS).1
          have hlt : (idxInS : Int) < arrays.sizeS := by
            rw [hstores.subsetS.size_eq, length_indices]
            omega
          obtain ⟨arrays', hserve, hstores', hvisits⟩ :=
            relabServeArrays_stores h hstores inv hgetL hgetS
          obtain ⟨hsubsetL, _⟩ := relabServe_frame globalList l s idxInS st
          have hgetL' : (relabServe globalList l s idxInS st).subsetL[idxInL]? = some l := by
            rw [hsubsetL, hgetL]
          have hload : loadAt arrays'.subsetL arrays'.load idxInL =
              some ((relabServe globalList l s idxInS st).load l) := by
            rw [hstores'.load]
            exact loadAt_counted hstores'.subsetL _ hgetL'
          rw [if_pos hlt, hserve]
          simp only [Option.bind_eq_bind, Option.bind_some, hload]
          by_cases hempty : (relabServe globalList l s idxInS st).load l ≤ 0
          · obtain ⟨cells, hgap, hremoved⟩ :=
              hstores'.removeL (List.getElem?_eq_some_iff.mp hgetL').1
            rw [if_pos hempty, if_pos hempty, hgap]
            exact ⟨_, rfl, hremoved, hvisits⟩
          · rw [if_neg hempty, if_neg hempty]
            have hshrink := length_relabServe_subsetS_le globalList l s idxInS st
            obtain ⟨arrays'', hrun, hstores'', hvisits'⟩ := ih fuel (by omega) (idxInS + 1)
              hstores' (inv.serve h hl (List.mem_of_getElem? hgetS) idxInS) hgetL' (by omega)
            exact ⟨arrays'', hrun, hstores'', hvisits'.trans hvisits⟩

/-- The visits are of different servers, and `size_srv` is within `N_entry` in each. -/
structure VisitsFit (n nb : Nat) (visits : List Visit) : Prop where
  nodup : (visits.map Visit.srv).Nodup
  valid : ∀ v ∈ visits, 0 ≤ v.srv ∧ v.srv < nb
  room : ∀ v ∈ visits, 0 ≤ v.sizeSrv ∧ v.sizeSrv ≤ n

theorem VisitsFit.visit {visits : List Visit} (h : VisitsFit n nb visits) {l : Fin nb}
    (hfresh : ∀ v ∈ visits, v.srv ≠ ((l : Nat) : Int)) {sizeSrv : Int}
    (hsize : 0 ≤ sizeSrv ∧ sizeSrv ≤ n) :
    VisitsFit n nb (visits ++ [⟨((l : Nat) : Int), sizeSrv⟩]) := by
  constructor
  · rw [List.map_append]
    refine List.Nodup.append h.nodup (List.nodup_singleton _) ?_
    intro srv hsrv hmem
    obtain ⟨v, hv, rfl⟩ := List.mem_map.mp hsrv
    exact hfresh v hv (List.mem_singleton.mp hmem)
  · intro v hv
    rcases List.mem_append.mp hv with hv | hv
    · exact h.valid v hv
    · rw [List.mem_singleton.mp hv]
      have hlt := l.isLt
      dsimp only
      omega
  · intro v hv
    rcases List.mem_append.mp hv with hv | hv
    · exact h.room v hv
    · rw [List.mem_singleton.mp hv]
      exact hsize

/-- `size_srv` counts cells of `subset_srv`. -/
theorem Stores.sizeSrv_le {arrays : RelabArrays} {st : Relab n nb} (h : Stores arrays st) :
    0 ≤ arrays.sizeSrv ∧ arrays.sizeSrv ≤ n := by
  have hle := h.subsetSrv.length_le
  have hlen := h.length_subsetSrv
  rw [h.subsetSrv.size_eq]
  omega

theorem LoopInv.loopS (h : LoadBounds globalList allList) {st : Relab n nb}
    (inv : LoopInv table globalList allList st) {l : Fin nb} (hl : mean allList < allList l)
    (idxInL fuel idxInS : Nat) :
    LoopInv table globalList allList (relabLoopS globalList l idxInL fuel idxInS st) := by
  refine relabLoopS_rule globalList l idxInL ?_ ?_ fuel idxInS st inv
  · intro st s hs inv
    have hs' := inv.underS s hs
    exact inv.turn hl hs' (relabTurn_spec h inv hl hs')
  · intro st subsetL subsetS hsub inv
    exact inv.shrink subsetL subsetS hsub

/-- The visit of one server: the arrays follow, and the visit is put on record. -/
theorem relabVisit_stores (h : LoadBounds globalList allList) {arrays : RelabArrays}
    {st : Relab n nb} (hstores : Stores arrays st)
    (inv : LoopInv table globalList allList st) {idxInL : Nat} {l : Fin nb}
    (hget : st.subsetL[idxInL]? = some l)
    (hvisit : Visiting table allList st.subsetSrv (l :: st.subsetL.drop (idxInL + 1))) :
    ∃ arrays' arrays'', relabFillArrays table idxInL arrays = some arrays' ∧
      relabLoopSArrays globalList idxInL (nb + 1) 0 arrays' = some arrays'' ∧
      Stores arrays'' (relabLoopS globalList l idxInL (relabFill table l st).subsetS.length 0
        (relabFill table l st)) ∧
      ∃ sizeSrv : Int, (0 ≤ sizeSrv ∧ sizeSrv ≤ n) ∧
        arrays''.visits = arrays.visits ++ [⟨((l : Nat) : Int), sizeSrv⟩] := by
  have hfill := hvisit.loopInv_fill inv
  -- every entry is on offer at most once, so that there is room for the new ones
  have hroom : (relabFill table l st).subsetSrv.length ≤ n := by
    have hle := hfill.srvNodup.length_le_card
    rwa [Fintype.card_fin] at hle
  obtain ⟨arrays', hrun, hstores', hvisits⟩ :=
    relabFillArrays_stores hstores hget hroom (inv.load_ne_min h)
  have hnb : (relabFill table l st).subsetS.length ≤ nb := by
    have hle := hstores'.subsetS.length_le
    rwa [length_indices, hstores'.length_subsetS] at hle
  obtain ⟨arrays'', hrun', hstores'', hvisits'⟩ := relabLoopSArrays_stores h
    (hvisit.overloaded l List.mem_cons_self) (nb + 1) (relabFill table l st).subsetS.length
    (by omega) 0 hstores' hfill hget (by omega)
  exact ⟨arrays', arrays'', hrun, hrun', hstores'', arrays'.sizeSrv, hstores'.sizeSrv_le,
    hvisits'.trans hvisits⟩

/-- The outer loop, with fuel to see that it is over.  The servers behind the index have not
been visited. -/
theorem relabLoopLArrays_stores (h : LoadBounds globalList allList) (fuel rounds : Nat)
    (hfuel : rounds < fuel) (idxInL : Nat) {arrays : RelabArrays} {st : Relab n nb}
    (hstores : Stores arrays st) (inv : LoopInv table globalList allList st)
    (hvisit : Visiting table allList st.subsetSrv (st.subsetL.drop idxInL))
    (hrounds : st.subsetL.length ≤ idxInL + rounds) (hfit : VisitsFit n nb arrays.visits)
    (hfresh : ∀ v ∈ arrays.visits, ∀ l ∈ st.subsetL.drop idxInL, v.srv ≠ ((l : Nat) : Int)) :
    ∃ arrays', relabLoopLArrays table globalList fuel idxInL arrays = some arrays' ∧
      Stores arrays' (relabLoopL table globalList rounds idxInL st) ∧
      VisitsFit n nb arrays'.visits := by
  induction rounds generalizing fuel idxInL arrays st with
  | zero =>
      obtain ⟨fuel, rfl⟩ : ∃ k, fuel = k + 1 := ⟨fuel - 1, by omega⟩
      have hover : ¬ (idxInL : Int) < arrays.sizeL := by
        rw [hstores.subsetL.size_eq, length_indices]
        omega
      rw [relabLoopLArrays, if_neg hover]
      exact ⟨arrays, rfl, hstores, hfit⟩
  | succ rounds ih =>
      obtain ⟨fuel, rfl⟩ : ∃ k, fuel = k + 1 := ⟨fuel - 1, by omega⟩
      rw [relabLoopLArrays, relabLoopL]
      cases hget : st.subsetL[idxInL]? with
      | none =>
          have hover : ¬ (idxInL : Int) < arrays.sizeL := by
            rw [hstores.subsetL.size_eq, length_indices]
            have hle := List.getElem?_eq_none_iff.mp hget
            omega
          rw [if_neg hover]
          exact ⟨arrays, rfl, hstores, hfit⟩
      | some l =>
          obtain ⟨hidx, hgetElem⟩ := List.getElem?_eq_some_iff.mp hget
          have hlt : (idxInL : Int) < arrays.sizeL := by
            rw [hstores.subsetL.size_eq, length_indices]
            omega
          rw [List.drop_eq_getElem_cons hidx, hgetElem] at hvisit hfresh
          obtain ⟨arrays', arrays'', hfill, hloop, hstores', sizeSrv, hsize, hvisits⟩ :=
            relabVisit_stores h hstores inv hget hvisit
          have hl := hvisit.overloaded l List.mem_cons_self
          have hwork := relabLoopS_work globalList l idxInL (relabFill table l st).subsetS.length
            0 (relabFill table l st)
          rw [if_pos hlt, hfill]
          simp only [Option.bind_eq_bind, Option.bind_some, hloop]
          refine ih fuel (by omega) (idxInL + 1) hstores'
            ((hvisit.loopInv_fill inv).loopS h hl _ _ _) (hvisit.visited globalList _ 0) ?_ ?_ ?_
          · have hkept : _ ≤ st.subsetL.length := length_relabLoopS_subsetL_le globalList l
              idxInL (relabFill table l st).subsetS.length 0 (relabFill table l st)
            omega
          · rw [hvisits]
            exact hfit.visit (fun v hv => hfresh v hv l List.mem_cons_self) hsize
          · intro v hv l' hl'
            have hmem := hwork.subset hl'
            rw [hvisits] at hv
            rcases List.mem_append.mp hv with hv | hv
            · exact hfresh v hv l' (List.mem_cons_of_mem l hmem)
            · rw [List.mem_singleton.mp hv]
              have hne := (List.rel_of_pairwise_cons hvisit.ordered hmem).ne
              exact fun heq => hne (Fin.ext (Int.ofNat_inj.mp heq))

/-! ## The table -/

/-- `mlt_update_entry` refuses no server of `target`. -/
theorem relabWriteArrays_eq (target : Fin n → Fin nb) (table : Mlt n (Fin nb)) (e : Fin n) :
    relabWriteArrays (List.ofFn fun e => ((target e : Nat) : Int)) table e =
      some (relabWrite target table e) := by
  have hread : readCell (List.ofFn fun e => ((target e : Nat) : Int)) (e : Nat) =
      some ((target e : Nat) : Int) := readCell_ofFn _ e
  have hvalid : 0 ≤ ((target e : Nat) : Int) ∧ ((target e : Nat) : Int).toNat < nb := by
    have hlt := (target e).isLt
    omega
  rw [relabWriteArrays, hread, relabWrite]
  simp only [Option.bind_eq_bind, Option.bind_some]
  by_cases hsame : table.idSrv e = target e
  · rw [if_pos (by rw [hsame]), if_neg (not_not_intro hsame)]
  · rw [if_neg fun heq => hsame (Fin.ext (Int.ofNat_inj.mp heq)), dif_pos hvalid,
      if_pos hsame]
    rfl

theorem foldlM_relabWriteArrays (target : Fin n → Fin nb) (table : Mlt n (Fin nb)) :
    (List.finRange n).foldlM
        (relabWriteArrays (List.ofFn fun e => ((target e : Nat) : Int))) table =
      some ((List.finRange n).foldl (relabWrite target) table) := by
  obtain ⟨table', hrun, rfl⟩ := exists_foldlM
    (f := relabWriteArrays (List.ofFn fun e => ((target e : Nat) : Int)))
    (R := fun done table' => table' = done.foldl (relabWrite target) table)
    (List.finRange n) (by
      rintro done e rest - table' rfl
      refine ⟨_, relabWriteArrays_eq target _ e, ?_⟩
      rw [List.foldl_append]
      rfl)
    table rfl
  exact hrun

/-- **`manager_calculate_relab` stays inside of its arrays**: with at least one server, on
sums that are `int`s, any table and whatever the arrays hold at first, every access of the
run is inside of its array and both loops end.  The visits are of different servers,
`size_srv` stays within `N_entry`, and the table is that of the model on lists. -/
theorem managerCalculateRelabArrays_inside (table : Mlt n (Fin nb)) (globalList : Fin n → Nat)
    (allList : Fin nb → Nat) (memory : RelabMemory n nb) (hnb : 0 < nb)
    (h : LoadBounds globalList allList) :
    ∃ arrays, managerCalculateRelabArrays table globalList allList memory =
        some (arrays, managerCalculateRelabTable table globalList allList) ∧
      VisitsFit n nb arrays.visits ∧ arrays.sizeSrv ≤ n ∧
      Stores arrays (relabRun table globalList allList) := by
  obtain ⟨start, hinit, hstart, hvisits⟩ := relabInitArrays_stores table allList hnb memory
  have hnone : VisitsFit n nb start.visits := by
    rw [hvisits]
    exact
      { nodup := List.nodup_nil
        valid := by simp
        room := by simp }
  have hle : (relabInit table allList).subsetL.length ≤ nb := by
    have hle := hstart.subsetL.length_le
    rwa [length_indices, hstart.length_subsetL] at hle
  obtain ⟨arrays, hrun, hstores, hfit⟩ := relabLoopLArrays_stores h (nb + 1)
    (relabInit table allList).subsetL.length (by omega) 0 hstart (loopInv_relabInit h)
    (visiting_relabInit h) (by omega) hnone (by simp [hvisits])
  refine ⟨arrays, ?_, hfit, hstores.sizeSrv_le.2, hstores⟩
  have hwrite := foldlM_relabWriteArrays (relabRun table globalList allList).target table
  have htarget : arrays.target = List.ofFn fun e =>
      (((relabRun table globalList allList).target e : Nat) : Int) := hstores.target
  rw [Int.natCast_zero] at hrun
  rw [managerCalculateRelabArrays, hinit]
  simp only [Option.bind_eq_bind, Option.bind_some, hrun, htarget, hwrite]
  rfl

/-- Three servers, two of them overloaded, in memory that is full of sevens. -/
theorem managerCalculateRelabArrays_inside_three :
    ∃ arrays, managerCalculateRelabArrays (mltInit 8 3)
        (fun e => [4, 23, 12, 3, 1, 0, 18, 5].getD e 0) ![25, 23, 12]
        ⟨List.replicate 8 7, List.replicate 3 7, List.replicate 8 7, List.replicate 8 7,
          rfl, rfl, rfl, rfl⟩ =
        some (arrays, managerCalculateRelabTable (mltInit 8 3)
          (fun e => [4, 23, 12, 3, 1, 0, 18, 5].getD e 0) ![25, 23, 12]) ∧
      VisitsFit 8 3 arrays.visits ∧ arrays.sizeSrv ≤ 8 ∧
      Stores arrays (relabRun (mltInit 8 3)
        (fun e => [4, 23, 12, 3, 1, 0, 18, 5].getD e 0) ![25, 23, 12]) :=
  managerCalculateRelabArrays_inside (mltInit 8 3)
    (fun e => [4, 23, 12, 3, 1, 0, 18, 5].getD e 0) ![25, 23, 12] _ (by decide)
    { global_lt := by decide
      all_lt := by decide }

end MeDiE.Manager
