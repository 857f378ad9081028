import MeDiE.Manager.RelabTurn
import MeDiE.Verified.Transition

/-!
# The two loops of the rebalancer

A turn permutes the offered entries and leaves the lists of servers alone, so the
loops keep what every turn keeps.  `Visiting` says which servers the outer loop has
still to visit, and that nothing of theirs is on offer yet.  The loops are also run one
iteration at a time, so that the states at the loop heads can be spoken about.
-/

namespace MeDiE.Manager

open MeDiE.Table
open MeDiE.Verified.Greedy
open MeDiE.Verified.SwapRemove
open MeDiE.Verified.Transition

variable {n nb : Nat} {table : Mlt n (Fin nb)} {globalList : Fin n → Nat}
  {allList : Fin nb → Nat}

/-! ## The loops -/

/-- A property kept by every turn on a server of `subset_s`, and by shrinking
the two server lists, is kept by the inner loop. -/
theorem relabLoopS_rule {P : Relab n nb → Prop} (globalList : Fin n → Nat) (l : Fin nb)
    (idxInL : Nat) (hturn : ∀ st s, s ∈ st.subsetS → P st → P (relabTurn globalList l s st))
    (hshrink : ∀ (st : Relab n nb) subsetL subsetS,
      (∀ s ∈ subsetS, s ∈ st.subsetS) → P st →
      P { st with subsetL := subsetL, subsetS := subsetS })
    (fuel idxInS : Nat) (st : Relab n nb) (h : P st) :
    P (relabLoopS globalList l idxInL fuel idxInS st) := by
  induction fuel generalizing idxInS st with
  | zero => exact h
  | succ fuel ih =>
      rw [relabLoopS]
      split
      · exact h
      · rename_i s hget
        have h1 := hturn st s (List.mem_of_getElem? hget) h
        have h2 : P (relabServe globalList l s idxInS st) := by
          unfold relabServe
          dsimp only
          split
          · exact hshrink _ (relabTurn globalList l s st).subsetL _
              (fun x hx => mem_of_mem_swapRemove hx) h1
          · exact h1
        dsimp only
        split
        · exact hshrink _ _ (relabServe globalList l s idxInS st).subsetS
            (fun x hx => hx) h2
        · exact ih _ _ h2

/-- A turn leaves the lists of servers alone and permutes the offered entries. -/
theorem relabTurn_frame (globalList : Fin n → Nat) (l s : Fin nb) (st : Relab n nb) :
    (relabTurn globalList l s st).subsetL = st.subsetL ∧
      (relabTurn globalList l s st).subsetS = st.subsetS ∧
      ∀ e, e ∈ (relabTurn globalList l s st).subsetSrv ↔ e ∈ st.subsetSrv := by
  have hfold : ∀ (set : List (Fin n)) (st : Relab n nb),
      (set.foldl (moveEntry globalList l s) st).subsetL = st.subsetL ∧
        (set.foldl (moveEntry globalList l s) st).subsetS = st.subsetS ∧
        (set.foldl (moveEntry globalList l s) st).subsetSrv = st.subsetSrv := by
    intro set
    induction set with
    | nil => exact fun st => ⟨rfl, rfl, rfl⟩
    | cons e set ih => exact fun st => ih (moveEntry globalList l s st e)
  obtain ⟨hL, hS, hsrv⟩ := hfold
    (managerBalanceLoad globalList 0 st.subsetSrv (turnGoal st l s)).2
    { st with subsetSrv :=
        (managerBalanceLoad globalList 0 st.subsetSrv (turnGoal st l s)).1 }
  refine ⟨hL, hS, fun e => ?_⟩
  rw [relabTurn]
  dsimp only at hsrv ⊢
  rw [hsrv, managerBalanceLoad_fst, mem_managerSortSubset]

/-- The inner loop removes at most the server it works for from `subset_l`. -/
theorem relabLoopS_subsetL (globalList : Fin n → Nat) (l : Fin nb)
    (idxInL fuel idxInS : Nat) (st : Relab n nb) :
    (relabLoopS globalList l idxInL fuel idxInS st).subsetL = st.subsetL ∨
      (relabLoopS globalList l idxInL fuel idxInS st).subsetL =
        swapRemove st.subsetL idxInL := by
  induction fuel generalizing idxInS st with
  | zero => exact Or.inl rfl
  | succ fuel ih =>
      rw [relabLoopS]
      split
      · exact Or.inl rfl
      · rename_i s hget
        have hsub : (relabServe globalList l s idxInS st).subsetL = st.subsetL := by
          have hframe := (relabTurn_frame globalList l s st).1
          unfold relabServe
          dsimp only
          split <;> exact hframe
        dsimp only
        split
        · exact Or.inr (congrArg (swapRemove · idxInL) hsub)
        · rw [← hsub]
          exact ih _ _

/-- What the outer loop still has to visit, and what is already on offer. -/
structure Visiting (table : Mlt n (Fin nb)) (allList : Fin nb → Nat)
    (offered : List (Fin n)) (work : List (Fin nb)) : Prop where
  overloaded : ∀ l ∈ work, mean allList < allList l
  ordered : work.Pairwise (MoreLoaded allList)
  fresh : ∀ e ∈ offered, ∀ l ∈ work, MoreLoaded allList (table.idSrv e) l

theorem Visiting.next {offered offered' : List (Fin n)} {l : Fin nb}
    {work work' : List (Fin nb)} (h : Visiting table allList offered (l :: work))
    (hsub : work'.Sublist work)
    (hoff : ∀ e ∈ offered', e ∈ offered ∨ table.idSrv e = l) :
    Visiting table allList offered' work' := by
  refine
    { overloaded := fun x hx => h.overloaded x (List.mem_cons_of_mem l (hsub.subset hx))
      ordered := (List.Pairwise.of_cons h.ordered).sublist hsub
      fresh := ?_ }
  intro e he x hx
  have hxw := hsub.subset hx
  rcases hoff e he with he | he
  · exact h.fresh e he x (List.mem_cons_of_mem l hxw)
  · exact he ▸ List.rel_of_pairwise_cons h.ordered hxw

/-- After the visit of `l` the work list has lost `l` and at most its last
element. -/
theorem relabLoopS_work (globalList : Fin n → Nat) (l : Fin nb)
    (idxInL fuel idxInS : Nat) (st : Relab n nb) :
    ((relabLoopS globalList l idxInL fuel idxInS st).subsetL.drop
      (idxInL + 1)).Sublist (st.subsetL.drop (idxInL + 1)) := by
  rcases relabLoopS_subsetL globalList l idxInL fuel idxInS st with h | h
  · rw [h]
  · rw [h, drop_swapRemove]
    exact List.dropLast_sublist _

/-- The offered entries are permuted by the inner loop. -/
theorem relabLoopS_offered (l : Fin nb) (idxInL fuel idxInS : Nat) (st : Relab n nb)
    (e : Fin n) :
    e ∈ (relabLoopS globalList l idxInL fuel idxInS st).subsetSrv ↔
      e ∈ st.subsetSrv :=
  relabLoopS_rule globalList l idxInL (P := fun st' => e ∈ st'.subsetSrv ↔ e ∈ st.subsetSrv)
    (fun st' s _ hst' => ((relabTurn_frame globalList l s st').2.2 e).trans hst')
    (fun _ _ _ _ hst' => hst') fuel idxInS st Iff.rfl

theorem Visiting.loopInv_fill {st : Relab n nb} {l : Fin nb} {work : List (Fin nb)}
    (h : Visiting table allList st.subsetSrv (l :: work))
    (inv : LoopInv table globalList allList st) :
    LoopInv table globalList allList (relabFill table l st) :=
  inv.fill (h.overloaded l (by simp)) fun e he => (h.fresh e he l (by simp)).ne

/-- After the visit of `l` the rest of the list is still to be visited. -/
theorem Visiting.visited (globalList : Fin n → Nat) {st : Relab n nb} {l : Fin nb}
    {idxInL : Nat}
    (h : Visiting table allList st.subsetSrv (l :: st.subsetL.drop (idxInL + 1)))
    (fuel idxInS : Nat) :
    Visiting table allList
      (relabLoopS globalList l idxInL fuel idxInS (relabFill table l st)).subsetSrv
      ((relabLoopS globalList l idxInL fuel idxInS
        (relabFill table l st)).subsetL.drop (idxInL + 1)) := by
  refine h.next (relabLoopS_work globalList l idxInL fuel idxInS _) ?_
  intro e he
  rw [relabLoopS_offered] at he
  rcases List.mem_append.mp he with he | he
  · exact Or.inl he
  · exact Or.inr (by simpa using he)

theorem visiting_relabInit (h : LoadBounds globalList allList) :
    Visiting table allList (relabInit table allList).subsetSrv
      ((relabInit table allList).subsetL.drop 0) where
  overloaded := fun l hl => (mem_relabInit_subsetL h l).mp hl
  ordered := pairwise_relabInit_subsetL h
  fresh := by simp [relabInit]

/-! ## The loops as steps -/

/-- The head of the outer loop, or that of the inner loop for the server `l`. -/
inductive RelabPoint (nb : Nat)
  | outer (idxInL : Nat)
  | inner (l : Fin nb) (idxInL idxInS : Nat)

/-- From one loop head to the next: the candidates for a server of `subset_l`, one
iteration of the inner loop, or its end. -/
def relabStep (table : Mlt n (Fin nb)) (globalList : Fin n → Nat) :
    RelabPoint nb × Relab n nb → Option (RelabPoint nb × Relab n nb)
  | (.outer idxInL, st) =>
      match st.subsetL[idxInL]? with
      | none => none
      | some l => some (.inner l idxInL 0, relabFill table l st)
  | (.inner l idxInL idxInS, st) =>
      match st.subsetS[idxInS]? with
      | none => some (.outer (idxInL + 1), st)
      | some s =>
          let st := relabServe globalList l s idxInS st
          if st.load l ≤ 0
          then some (.outer (idxInL + 1),
            { st with subsetL := swapRemove st.subsetL idxInL })
          else some (.inner l idxInL (idxInS + 1), st)

/-- Everything a step from one loop head to the next can be: the candidates of the next
server of `subset_l` are appended, the inner loop ends, or an iteration of it serves `s`,
after which `l` is removed or stays. -/
inductive HeadStep (table : Mlt n (Fin nb)) (globalList : Fin n → Nat) :
    RelabPoint nb × Relab n nb → RelabPoint nb × Relab n nb → Prop
  | fill {idxInL : Nat} {l : Fin nb} {st : Relab n nb} (hget : st.subsetL[idxInL]? = some l) :
      HeadStep table globalList (.outer idxInL, st) (.inner l idxInL 0, relabFill table l st)
  | leave {l : Fin nb} {idxInL idxInS : Nat} {st : Relab n nb}
      (hget : st.subsetS[idxInS]? = none) :
      HeadStep table globalList (.inner l idxInL idxInS, st) (.outer (idxInL + 1), st)
  | emptied {l s : Fin nb} {idxInL idxInS : Nat} {st : Relab n nb}
      (hget : st.subsetS[idxInS]? = some s)
      (hload : (relabTurn globalList l s st).load l ≤ 0) :
      HeadStep table globalList (.inner l idxInL idxInS, st) (.outer (idxInL + 1),
        { relabServe globalList l s idxInS st with
          subsetL := swapRemove st.subsetL idxInL })
  | served {l s : Fin nb} {idxInL idxInS : Nat} {st : Relab n nb}
      (hget : st.subsetS[idxInS]? = some s)
      (hload : 0 < (relabTurn globalList l s st).load l) :
      HeadStep table globalList (.inner l idxInL idxInS, st)
        (.inner l idxInL (idxInS + 1), relabServe globalList l s idxInS st)

/-- The states at the loop heads of a call. -/
def RelabReach (table : Mlt n (Fin nb)) (globalList : Fin n → Nat) (allList : Fin nb → Nat) :
    RelabPoint nb × Relab n nb → Prop :=
  Reach (.outer 0, relabInit table allList) (Steps fun (_ : Unit) => relabStep table globalList)

theorem RelabReach.next {x y : RelabPoint nb × Relab n nb}
    (h : RelabReach table globalList allList x)
    (hstep : relabStep table globalList x = some y) : RelabReach table globalList allList y :=
  Reach.next h ⟨(), hstep⟩

/-- The inner loop is a run of these steps. -/
theorem relabReach_relabLoopS (l : Fin nb) (idxInL fuel idxInS : Nat) (st : Relab n nb)
    (hfuel : st.subsetS.length ≤ idxInS + fuel)
    (h : RelabReach table globalList allList (.inner l idxInL idxInS, st)) :
    RelabReach table globalList allList
      (.outer (idxInL + 1), relabLoopS globalList l idxInL fuel idxInS st) := by
  induction fuel generalizing idxInS st with
  | zero =>
      have hnone : st.subsetS[idxInS]? = none := List.getElem?_eq_none hfuel
      exact h.next (by simp only [relabStep, hnone, relabLoopS])
  | succ fuel ih =>
      rw [relabLoopS]
      cases hget : st.subsetS[idxInS]? with
      | none => exact h.next (by simp only [relabStep, hget])
      | some s =>
          have hlen : (relabServe globalList l s idxInS st).subsetS.length ≤
              st.subsetS.length := by
            have hframe := (relabTurn_frame globalList l s st).2.1
            unfold relabServe
            dsimp only
            split
            · rw [length_swapRemove, hframe]
              exact Nat.sub_le _ _
            · rw [hframe]
          dsimp only
          by_cases hdone : (relabServe globalList l s idxInS st).load l ≤ 0
          · rw [if_pos hdone]
            exact h.next (by simp only [relabStep, hget, if_pos hdone])
          · rw [if_neg hdone]
            apply ih
            · omega
            · exact h.next (by simp only [relabStep, hget, if_neg hdone])

/-- The outer loop is, too: the state after a call is one of these states, at an index
where the outer loop ends. -/
theorem relabReach_relabLoopL (fuel idxInL : Nat) (st : Relab n nb)
    (hfuel : st.subsetL.length ≤ idxInL + fuel)
    (h : RelabReach table globalList allList (.outer idxInL, st)) :
    ∃ idx, (relabLoopL table globalList fuel idxInL st).subsetL[idx]? = none ∧
      RelabReach table globalList allList
        (.outer idx, relabLoopL table globalList fuel idxInL st) := by
  induction fuel generalizing idxInL st with
  | zero => exact ⟨idxInL, List.getElem?_eq_none hfuel, h⟩
  | succ fuel ih =>
      rw [relabLoopL]
      cases hget : st.subsetL[idxInL]? with
      | none => exact ⟨idxInL, hget, h⟩
      | some l =>
          have hfill : RelabReach table globalList allList
              (.inner l idxInL 0, relabFill table l st) :=
            h.next (by simp only [relabStep, hget])
          have hlen : (relabLoopS globalList l idxInL (relabFill table l st).subsetS.length 0
              (relabFill table l st)).subsetL.length ≤ st.subsetL.length := by
            rcases relabLoopS_subsetL globalList l idxInL (relabFill table l st).subsetS.length
              0 (relabFill table l st) with heq | heq
            · rw [heq]
              exact Nat.le_refl _
            · rw [heq, length_swapRemove]
              exact Nat.sub_le _ _
          apply ih
          · omega
          · exact relabReach_relabLoopS l idxInL _ 0 _ (by omega) hfill

theorem relabReach_relabRun (table : Mlt n (Fin nb)) (globalList : Fin n → Nat)
    (allList : Fin nb → Nat) :
    ∃ idx, (relabRun table globalList allList).subsetL[idx]? = none ∧
      RelabReach table globalList allList (.outer idx, relabRun table globalList allList) :=
  relabReach_relabLoopL _ 0 _ (by omega) Reach.start

/-! ## The invariant of the loops, at their heads -/

/-- The invariant of both loops, with what is still to be visited. -/
def RelabPointInv (table : Mlt n (Fin nb)) (globalList : Fin n → Nat) (allList : Fin nb → Nat) :
    RelabPoint nb × Relab n nb → Prop
  | (.outer idxInL, st) => LoopInv table globalList allList st ∧
      Visiting table allList st.subsetSrv (st.subsetL.drop idxInL)
  | (.inner l idxInL _, st) => LoopInv table globalList allList st ∧
      mean allList < allList l ∧
      Visiting table allList st.subsetSrv (st.subsetL.drop (idxInL + 1))

theorem relabServe_frame (globalList : Fin n → Nat) (l s : Fin nb) (idxInS : Nat)
    (st : Relab n nb) :
    (relabServe globalList l s idxInS st).subsetL = st.subsetL ∧
      (∀ e, e ∈ (relabServe globalList l s idxInS st).subsetSrv ↔ e ∈ st.subsetSrv) ∧
      (relabServe globalList l s idxInS st).load = (relabTurn globalList l s st).load ∧
      (relabServe globalList l s idxInS st).target = (relabTurn globalList l s st).target := by
  obtain ⟨hL, _, hsrv⟩ := relabTurn_frame globalList l s st
  unfold relabServe
  dsimp only
  split <;> exact ⟨hL, hsrv, rfl, rfl⟩

theorem headStep_of_relabStep {x y : RelabPoint nb × Relab n nb}
    (hstep : relabStep table globalList x = some y) : HeadStep table globalList x y := by
  obtain ⟨point, st⟩ := x
  cases point with
  | outer idxInL =>
      cases hget : st.subsetL[idxInL]? with
      | none => simp [relabStep, hget] at hstep
      | some l =>
          simp only [relabStep, hget, Option.some.injEq] at hstep
          exact hstep ▸ HeadStep.fill hget
  | inner l idxInL idxInS =>
      cases hget : st.subsetS[idxInS]? with
      | none =>
          simp only [relabStep, hget, Option.some.injEq] at hstep
          exact hstep ▸ HeadStep.leave hget
      | some s =>
          obtain ⟨hL, _, hload, _⟩ := relabServe_frame globalList l s idxInS st
          simp only [relabStep, hget, hL] at hstep
          split at hstep <;> rename_i hdone <;> rw [hload] at hdone
          · exact Option.some.inj hstep ▸ HeadStep.emptied hget hdone
          · exact Option.some.inj hstep ▸ HeadStep.served hget (by omega)

theorem LoopInv.serve (h : LoadBounds globalList allList) {st : Relab n nb}
    (inv : LoopInv table globalList allList st) {l s : Fin nb} (hl : mean allList < allList l)
    (hs : s ∈ st.subsetS) (idxInS : Nat) :
    LoopInv table globalList allList (relabServe globalList l s idxInS st) := by
  have hs' := inv.underS s hs
  have hturn := inv.turn hl hs' (relabTurn_spec h inv hl hs')
  unfold relabServe
  dsimp only
  split
  · exact hturn.shrink (relabTurn globalList l s st).subsetL _
      (fun x hx => mem_of_mem_swapRemove hx)
  · exact hturn

/-- What is left to be visited can only become less while `l` is served. -/
theorem Visiting.serve {l s : Fin nb} {idxInS : Nat} {st : Relab n nb} {work : List (Fin nb)}
    (h : Visiting table allList st.subsetSrv work) {work' : List (Fin nb)}
    (hsub : work'.Sublist work) :
    Visiting table allList (relabServe globalList l s idxInS st).subsetSrv work' where
  overloaded := fun x hx => h.overloaded x (hsub.subset hx)
  ordered := h.ordered.sublist hsub
  fresh := fun e he x hx =>
    h.fresh e (((relabServe_frame globalList l s idxInS st).2.1 e).mp he) x (hsub.subset hx)

theorem RelabPointInv.step (h : LoadInput table globalList allList)
    {x y : RelabPoint nb × Relab n nb}
    (hinv : RelabPointInv table globalList allList x)
    (hstep : relabStep table globalList x = some y) :
    RelabPointInv table globalList allList y := by
  cases headStep_of_relabStep hstep with
  | @fill idxInL l st hget =>
      obtain ⟨inv, hvisit⟩ := hinv
      obtain ⟨hidx, hget⟩ := List.getElem?_eq_some_iff.mp hget
      rw [List.drop_eq_getElem_cons hidx, hget] at hvisit
      refine ⟨hvisit.loopInv_fill inv, hvisit.overloaded l List.mem_cons_self, ?_⟩
      refine hvisit.next (List.Sublist.refl _) ?_
      intro e he
      rcases List.mem_append.mp he with he | he
      · exact Or.inl he
      · exact Or.inr (by simpa using he)
  | leave hget => exact ⟨hinv.1, hinv.2.2⟩
  | @emptied l s idxInL idxInS st hget hload =>
      obtain ⟨inv, hl, hvisit⟩ := hinv
      have hserve := inv.serve h.bounds hl (List.mem_of_getElem? hget) idxInS
      refine ⟨hserve.shrink _ (relabServe globalList l s idxInS st).subsetS
        (fun x hx => hx), hvisit.serve ?_⟩
      rw [drop_swapRemove]
      exact List.dropLast_sublist _
  | @served l s idxInL idxInS st hget hload =>
      obtain ⟨inv, hl, hvisit⟩ := hinv
      refine ⟨inv.serve h.bounds hl (List.mem_of_getElem? hget) idxInS, hl, hvisit.serve ?_⟩
      rw [(relabServe_frame globalList l s idxInS st).1]

theorem relabPointInv_of_reach (h : LoadInput table globalList allList)
    {x : RelabPoint nb × Relab n nb}
    (hx : RelabReach table globalList allList x) : RelabPointInv table globalList allList x := by
  apply Reach.invariant _ _ hx
  · exact ⟨loopInv_relabInit h.bounds, visiting_relabInit h.bounds⟩
  · rintro x y _ hinv ⟨_, hstep⟩
    exact hinv.step h hstep

end MeDiE.Manager
