import MeDiE.Manager.Loads

/-!
# One turn of the rebalancing loops

A turn offers the entries in `subset_srv` to one overloaded server `l` and one
underloaded server `s`.  `TurnSpec` says everything a turn does when the input
is consistent, in terms of the set of entries it chose; `LoopInv` is the
invariant of both loops, and it is what keeps the arithmetic of a turn from
wrapping around.
-/

namespace MeDiE.Manager

open MeDiE.Table
open MeDiE.Verified.BubbleSort
open MeDiE.Verified.Greedy
open MeDiE.Verified.SwapRemove
open MeDiE.Verified.Word32

variable {n nb : Nat} {table : Mlt n (Fin nb)} {globalList : Fin n → Nat}
  {allList : Fin nb → Nat}

/-- The order in which overloaded servers are visited. -/
def MoreLoaded (allList : Fin nb → Nat) (l l' : Fin nb) : Prop :=
  allList l' < allList l ∨ allList l = allList l' ∧ l < l'

instance (allList : Fin nb → Nat) (l l' : Fin nb) :
    Decidable (MoreLoaded allList l l') :=
  inferInstanceAs (Decidable (_ ∨ _))

theorem MoreLoaded.ne {l l' : Fin nb} (h : MoreLoaded allList l l') : l ≠ l' := by
  rintro rfl
  unfold MoreLoaded at h
  omega

/-- The entries chosen in a turn. -/
def turnSet (globalList : Fin n → Nat) (l s : Fin nb) (st : Relab n nb) : List (Fin n) :=
  (managerBalanceLoad globalList 0 st.subsetSrv (turnGoal st l s)).2

/-- What holds whenever a turn starts: relative loads stay on their side of
zero and never grow in size, only entries of overloaded servers are moved and
only to underloaded ones, and what a server gained is covered by what was
counted for it. -/
structure LoopInv (table : Mlt n (Fin nb)) (globalList : Fin n → Nat)
    (allList : Fin nb → Nat) (st : Relab n nb) : Prop where
  overloaded : ∀ l, mean allList < allList l →
    0 ≤ st.load l ∧ st.load l ≤ (allList l : Int) - mean allList
  underloaded : ∀ s, allList s < mean allList →
    (allList s : Int) - mean allList ≤ st.load s ∧ st.load s ≤ 0
  moved : ∀ e, st.target e ≠ table.idSrv e →
    mean allList < allList (table.idSrv e) ∧ allList (st.target e) < mean allList
  gain : ∀ s, allList s < mean allList →
    ((∑ e with st.target e = s ∧ table.idSrv e ≠ s, globalList e : Nat) : Int) ≤
      st.load s - ((allList s : Int) - mean allList)
  srvNodup : st.subsetSrv.Nodup
  srvOver : ∀ e ∈ st.subsetSrv, mean allList < allList (table.idSrv e)
  underS : ∀ s ∈ st.subsetS, allList s < mean allList

/-- Everything a turn does, given the entries it chose. -/
structure TurnSpec (globalList : Fin n → Nat) (l s : Fin nb) (st st' : Relab n nb)
    (set : List (Fin n)) : Prop where
  subset : ∀ e ∈ set, e ∈ st.subsetSrv
  nodup : set.Nodup
  neZero : ∀ e ∈ set, globalList e ≠ 0
  roomS : (total globalList set : Int) ≤ -st.load s
  roomL : (total globalList set : Int) ≤ st.load l
  maximal : ∀ e ∈ st.subsetSrv, e ∉ set → globalList e = 0 ∨
    -st.load s < (total globalList set + globalList e : Nat) ∨
    st.load l < (total globalList set + globalList e : Nat)
  target : ∀ e, st'.target e = if e ∈ set then s else st.target e
  loadS : st'.load s = st.load s + total globalList set
  loadL : st'.load l = st.load l - total globalList set
  loadOther : ∀ x, x ≠ s → x ≠ l → st'.load x = st.load x
  srv : st'.subsetSrv.Perm st.subsetSrv
  subsetL : st'.subsetL = st.subsetL
  subsetS : st'.subsetS = st.subsetS

/-! ## Moving the chosen entries -/

/-- The moving loop adds the chosen loads to `s` and takes them from `l`, as
long as neither counter crosses zero. -/
private theorem foldl_moveEntry (globalList : Fin n → Nat) (l s : Fin nb) (hls : l ≠ s)
    (set : List (Fin n)) (st : Relab n nb) (hslo : -2 ^ 31 ≤ st.load s) (hlhi : st.load l < 2 ^ 31)
    (hs : (total globalList set : Int) ≤ -st.load s)
    (hl : (total globalList set : Int) ≤ st.load l) :
    let st' := set.foldl (moveEntry globalList l s) st
    (∀ e, st'.target e = if e ∈ set then s else st.target e) ∧
      st'.load s = st.load s + total globalList set ∧
      st'.load l = st.load l - total globalList set ∧
      (∀ x, x ≠ s → x ≠ l → st'.load x = st.load x) ∧
      st'.subsetSrv = st.subsetSrv ∧ st'.subsetL = st.subsetL ∧
      st'.subsetS = st.subsetS := by
  induction set generalizing st with
  | nil => simp
  | cons e set ih =>
      rw [total_cons] at hs hl
      push_cast at hs hl
      have hstepS : (moveEntry globalList l s st e).load s =
          st.load s + globalList e := by
        simp only [moveEntry]
        rw [Function.update_of_ne (Ne.symm hls), Function.update_self,
          toInt32_eq (by omega) (by omega)]
      have hstepL : (moveEntry globalList l s st e).load l =
          st.load l - globalList e := by
        simp only [moveEntry]
        rw [Function.update_self, Function.update_of_ne hls,
          toInt32_eq (by omega) (by omega)]
      obtain ⟨htarget, hloadS, hloadL, hother, hsrv, hsubL, hsubS⟩ :=
        ih (moveEntry globalList l s st e) (by omega) (by omega) (by omega) (by omega)
      refine ⟨?_, ?_, ?_, ?_, hsrv, hsubL, hsubS⟩
      · intro i
        rw [List.foldl_cons, htarget]
        by_cases hi : i ∈ set
        · simp [hi]
        · by_cases hie : i = e <;> simp [hi, hie, moveEntry]
      · rw [List.foldl_cons, hloadS, hstepS, total_cons]
        push_cast
        omega
      · rw [List.foldl_cons, hloadL, hstepL, total_cons]
        push_cast
        omega
      · intro x hxs hxl
        rw [List.foldl_cons, hother x hxs hxl]
        simp [moveEntry, hxs, hxl]

/-- Goals up to the mean keep the selection from wrapping around. -/
theorem LoadBounds.fitsInt (h : LoadBounds globalList allList) {l s : Fin nb}
    (hls : l ≠ s) {goal : Nat} (hgoal : goal ≤ mean allList) (list : List (Fin n)) :
    FitsInt globalList goal list where
  goal_lt := Nat.lt_of_le_of_lt hgoal h.mean_lt
  load_lt := fun e _ => h.globalList_lt e
  close_le := fun e _ => by
    have hmean := h.two_mean_lt hls
    have he := h.globalList_lt e
    omega

/-- The specification of a turn between an overloaded and an underloaded server. -/
theorem relabTurn_spec (h : LoadBounds globalList allList) {st : Relab n nb}
    (inv : LoopInv table globalList allList st) {l s : Fin nb}
    (hl : mean allList < allList l) (hs : allList s < mean allList) :
    TurnSpec globalList l s st (relabTurn globalList l s st)
      (turnSet globalList l s st) := by
  have hls : l ≠ s := fun heq => by subst heq; omega
  have hover := inv.overloaded l hl
  have hunder := inv.underloaded s hs
  have hmean := h.mean_lt
  have hall := h.allList_lt l
  obtain ⟨goal, hgoal, hgoalS, hgoalL, hmin⟩ : ∃ goal : Nat,
      turnGoal st l s = goal ∧ (goal : Int) ≤ -st.load s ∧ (goal : Int) ≤ st.load l ∧
        ((goal : Int) = -st.load s ∨ (goal : Int) = st.load l) := by
    refine ⟨(turnGoal st l s).toNat, ?_, ?_, ?_, ?_⟩ <;>
      · unfold turnGoal
        split <;> omega
  have hfit := h.fitsInt hls (show goal ≤ mean allList by omega) st.subsetSrv
  have hbal := managerBalanceLoad_eq globalList st.subsetSrv goal hfit
  have hperm := managerSortSubset_perm st.subsetSrv (fun e => toInt32 (globalList e))
  have hdesc := managerSortSubset_descending globalList st.subsetSrv
    (fun e _ => h.globalList_lt e)
  have hset : turnSet globalList l s st = greedyTake globalList goal
      (managerSortSubset st.subsetSrv (fun e => toInt32 (globalList e))) := by
    rw [turnSet, hgoal, hbal]
  have hsub := greedyTake_sublist globalList goal
    (managerSortSubset st.subsetSrv (fun e => toInt32 (globalList e)))
  have htotal := total_greedyTake_le globalList goal
    (managerSortSubset st.subsetSrv (fun e => toInt32 (globalList e)))
  rw [← hset] at hsub htotal
  obtain ⟨htarget, hloadS, hloadL, hother, hsrv, hsubL, hsubS⟩ :=
    foldl_moveEntry globalList l s hls (turnSet globalList l s st)
      { st with subsetSrv :=
          (managerBalanceLoad globalList 0 st.subsetSrv (turnGoal st l s)).1 }
      (by simp only; omega) (by simp only; omega) (by simp only; omega)
      (by simp only; omega)
  refine
    { subset := fun e he => by simpa using hsub.subset he
      nodup := hsub.nodup (hperm.nodup_iff.mpr inv.srvNodup)
      neZero := by
        rw [hset]
        exact greedyTake_ne_zero globalList goal _
      roomS := by omega
      roomL := by omega
      maximal := ?_
      target := htarget
      loadS := hloadS
      loadL := hloadL
      loadOther := hother
      srv := ?_
      subsetL := hsubL
      subsetS := hsubS }
  · intro e he hnot
    rw [hset] at hnot ⊢
    have hmax := greedyTake_maximal globalList goal _ hdesc e (by simpa using he) hnot
    rcases hmax with hz | hbig
    · exact Or.inl hz
    · rcases hmin with hmin | hmin
      · exact Or.inr (Or.inl (by omega))
      · exact Or.inr (Or.inr (by omega))
  · have hsrv' : (relabTurn globalList l s st).subsetSrv =
        (managerBalanceLoad globalList 0 st.subsetSrv (turnGoal st l s)).1 := hsrv
    rw [hsrv', hgoal, hbal]
    exact hperm

/-! ## The invariant along a turn -/

/-- Extending a selection of entries by a list adds at most the list's total. -/
theorem sum_filter_le_add_total (globalList : Fin n → Nat) (p q : Fin n → Prop)
    [DecidablePred p] [DecidablePred q] (set : List (Fin n)) (hset : set.Nodup)
    (hpq : ∀ e, p e → q e ∨ e ∈ set) :
    ∑ e with p e, globalList e ≤ ∑ e with q e, globalList e + total globalList set := by
  have hsub : Finset.univ.filter p ⊆ Finset.univ.filter q ∪ set.toFinset := by
    intro e he
    rw [Finset.mem_filter_univ] at he
    simpa using hpq e he
  calc ∑ e with p e, globalList e
      ≤ ∑ e ∈ Finset.univ.filter q ∪ set.toFinset, globalList e :=
        Finset.sum_le_sum_of_subset hsub
    _ ≤ ∑ e with q e, globalList e + ∑ e ∈ set.toFinset, globalList e := by
        rw [← Finset.sum_union_inter]
        exact Nat.le_add_right _ _
    _ = ∑ e with q e, globalList e + total globalList set := by
        rw [List.sum_toFinset globalList hset]
        rfl

theorem LoopInv.turn {st : Relab n nb} (inv : LoopInv table globalList allList st)
    {l s : Fin nb} (hl : mean allList < allList l) (hs : allList s < mean allList)
    {st' : Relab n nb} {set : List (Fin n)}
    (spec : TurnSpec globalList l s st st' set) :
    LoopInv table globalList allList st' := by
  have hroomS := spec.roomS
  have hroomL := spec.roomL
  refine
    { overloaded := ?_
      underloaded := ?_
      moved := ?_
      gain := ?_
      srvNodup := spec.srv.nodup_iff.mpr inv.srvNodup
      srvOver := fun e he => inv.srvOver e (spec.srv.mem_iff.mp he)
      underS := by rw [spec.subsetS]; exact inv.underS }
  · intro x hx
    have hold := inv.overloaded x hx
    have hxs : x ≠ s := fun heq => by subst heq; omega
    by_cases hxl : x = l
    · subst hxl
      rw [spec.loadL]
      omega
    · rw [spec.loadOther x hxs hxl]
      exact hold
  · intro x hx
    have hold := inv.underloaded x hx
    have hxl : x ≠ l := fun heq => by subst heq; omega
    by_cases hxs : x = s
    · subst hxs
      rw [spec.loadS]
      omega
    · rw [spec.loadOther x hxs hxl]
      exact hold
  · intro e he
    rw [spec.target] at he ⊢
    split at he
    · rename_i hmem
      rw [if_pos hmem]
      exact ⟨inv.srvOver e (spec.subset e hmem), hs⟩
    · rename_i hmem
      rw [if_neg hmem]
      exact inv.moved e he
  · intro x hx
    have hold := inv.gain x hx
    have hxl : x ≠ l := fun heq => by subst heq; omega
    by_cases hxs : x = s
    · subst hxs
      have hle := sum_filter_le_add_total globalList
        (fun e => st'.target e = x ∧ table.idSrv e ≠ x)
        (fun e => st.target e = x ∧ table.idSrv e ≠ x) set spec.nodup (by
          intro e he
          rw [spec.target] at he
          by_cases hmem : e ∈ set
          · exact Or.inr hmem
          · rw [if_neg hmem] at he
            exact Or.inl he)
      rw [spec.loadS]
      omega
    · have hle : ∑ e with st'.target e = x ∧ table.idSrv e ≠ x, globalList e ≤
          ∑ e with st.target e = x ∧ table.idSrv e ≠ x, globalList e := by
        refine Finset.sum_le_sum_of_subset fun e he => ?_
        rw [Finset.mem_filter_univ, spec.target] at he
        rw [Finset.mem_filter_univ]
        by_cases hmem : e ∈ set
        · rw [if_pos hmem] at he
          exact absurd he.1.symm hxs
        · rwa [if_neg hmem] at he
      rw [spec.loadOther x hxs hxl]
      omega

/-- The invariant reads `subset_l` not at all and `subset_s` only for
membership. -/
theorem LoopInv.shrink {st : Relab n nb} (inv : LoopInv table globalList allList st)
    (subsetL subsetS : List (Fin nb)) (hsub : ∀ s ∈ subsetS, s ∈ st.subsetS) :
    LoopInv table globalList allList
      { st with subsetL := subsetL, subsetS := subsetS } :=
  { overloaded := inv.overloaded
    underloaded := inv.underloaded
    moved := inv.moved
    gain := inv.gain
    srvNodup := inv.srvNodup
    srvOver := inv.srvOver
    underS := fun s hs => inv.underS s (hsub s hs) }

/-! ## Entering the loops -/

theorem mem_relabInit_subsetL (h : LoadBounds globalList allList) (l : Fin nb) :
    l ∈ (relabInit table allList).subsetL ↔ mean allList < allList l := by
  simp only [relabInit, mem_managerSortSubset, List.mem_filter, List.mem_finRange,
    true_and, decide_eq_true_eq, h.relativeLoad_eq]
  omega

theorem mem_relabInit_subsetS (h : LoadBounds globalList allList) (s : Fin nb) :
    s ∈ (relabInit table allList).subsetS ↔ allList s < mean allList := by
  simp only [relabInit, List.mem_filter, List.mem_finRange,
    true_and, decide_eq_true_eq, h.relativeLoad_eq]
  omega

/-- Overloaded servers are visited from the most loaded on, servers with the
same load in the order of their numbers. -/
theorem pairwise_relabInit_subsetL (h : LoadBounds globalList allList) :
    (relabInit table allList).subsetL.Pairwise (MoreLoaded allList) := by
  have hindex : ((List.finRange nb).filter (fun s => 0 < relativeLoad allList s)).Pairwise
      (fun a b => (relativeLoad allList a).natAbs = (relativeLoad allList b).natAbs →
        a < b) := by
    refine ((List.pairwise_lt_finRange nb).filter _).imp ?_
    intro a b hab _
    exact hab
  have hlex := bubbleSort_stable (fun s => (relativeLoad allList s).natAbs) (· < ·) _
    hindex
  refine hlex.imp_of_mem ?_
  intro a b ha hb hab
  simp only [mem_bubbleSort, List.mem_filter, decide_eq_true_eq,
    h.relativeLoad_eq] at ha hb hab
  unfold MoreLoaded
  omega

theorem loopInv_relabInit (h : LoadBounds globalList allList) :
    LoopInv table globalList allList (relabInit table allList) := by
  have hload : ∀ s, (relabInit table allList).load s =
      (allList s : Int) - mean allList := h.relativeLoad_eq
  refine
    { overloaded := ?_
      underloaded := ?_
      moved := fun e he => absurd rfl he
      gain := ?_
      srvNodup := List.nodup_nil
      srvOver := by simp [relabInit]
      underS := fun s hs => (mem_relabInit_subsetS h s).mp hs }
  · intro l hl
    rw [hload]
    omega
  · intro s hs
    rw [hload]
    omega
  · intro s hs
    rw [hload]
    have hzero : ∑ e with (relabInit table allList).target e = s ∧
        table.idSrv e ≠ s, globalList e = 0 := by
      refine Finset.sum_eq_zero fun e he => ?_
      rw [Finset.mem_filter_univ] at he
      exact absurd he.1 he.2
    rw [hzero]
    simp

/-- Filling `subset_srv` for a server none of whose entries is in it. -/
theorem LoopInv.fill {st : Relab n nb} (inv : LoopInv table globalList allList st)
    {l : Fin nb} (hl : mean allList < allList l)
    (hfresh : ∀ e ∈ st.subsetSrv, table.idSrv e ≠ l) :
    LoopInv table globalList allList (relabFill table l st) := by
  refine
    { overloaded := inv.overloaded
      underloaded := inv.underloaded
      moved := inv.moved
      gain := inv.gain
      srvNodup := ?_
      srvOver := ?_
      underS := fun s hs => inv.underS s (by simpa [relabFill] using hs) }
  · refine List.Nodup.append inv.srvNodup ((List.nodup_finRange n).filter _) ?_
    intro e he he'
    exact hfresh e he (by simpa using he')
  · intro e he
    rcases List.mem_append.mp he with he | he
    · exact inv.srvOver e he
    · rw [show table.idSrv e = l by simpa using he]
      exact hl

end MeDiE.Manager
