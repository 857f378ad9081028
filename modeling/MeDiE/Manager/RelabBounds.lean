import MeDiE.Manager.RelabBooks

/-!
# Does rebalancing keep every server on its side of the mean?

`subset_srv` is not emptied between overloaded servers, so in the visit of one server
the entries of the servers before it are offered again, and what is chosen of them is
taken from their owners although it is counted for the server that is being relieved.
The server itself gives away at most what it has too much.  So an overloaded server ends
at the mean or above it exactly if no iteration takes more from it, while another one is
being relieved, than it still has above the mean.
-/

namespace MeDiE.Manager

open MeDiE.Table
open MeDiE.Verified.Greedy
open MeDiE.Verified.SwapRemove
open MeDiE.Verified.Transition

variable {n nb : Nat} {table : Mlt n (Fin nb)} {globalList : Fin n → Nat}
  {allList : Fin nb → Nat}

/-- Every server ends between its old load and the mean, and a server at the
mean keeps its entries. -/
def NeverWorse (table : Mlt n (Fin nb)) (globalList : Fin n → Nat)
    (allList : Fin nb → Nat) : Prop :=
  ∀ s, (mean allList < allList s →
      mean allList ≤ ownedLoad globalList
          (managerCalculateRelabTable table globalList allList).idSrv s ∧
        ownedLoad globalList
          (managerCalculateRelabTable table globalList allList).idSrv s ≤ allList s) ∧
    (allList s < mean allList →
      allList s ≤ ownedLoad globalList
          (managerCalculateRelabTable table globalList allList).idSrv s ∧
        ownedLoad globalList
          (managerCalculateRelabTable table globalList allList).idSrv s ≤ mean allList) ∧
    (allList s = mean allList →
      ∀ e, (managerCalculateRelabTable table globalList allList).idSrv e = s ↔
        table.idSrv e = s)

/-- At the head of the inner loop, if there is a next iteration: what it chooses among the
entries that still belong to an overloaded server other than the one being relieved leaves
that server at the mean or above it. -/
def SparesOthers (globalList : Fin n → Nat) (allList : Fin nb → Nat) :
    RelabPoint nb × Relab n nb → Prop
  | (.outer _, _) => True
  | (.inner l _ idxInS, st) => ∀ s, st.subsetS[idxInS]? = some s →
      ∀ x, mean allList < allList x → x ≠ l →
        mean allList + takenFrom globalList st (turnSet globalList l s st) x ≤
          ownedLoad globalList st.target x

/-! ## What is counted for a server is there -/

/-- Overloaded servers keep a load of at least the mean. -/
def KeepsMean (globalList : Fin n → Nat) (allList : Fin nb → Nat) (st : Relab n nb) : Prop :=
  ∀ x, mean allList < allList x → mean allList ≤ ownedLoad globalList st.target x

/-- What is counted as too much for these servers they really have. -/
def GapsBacked (globalList : Fin n → Nat) (allList : Fin nb → Nat) (st : Relab n nb)
    (work : List (Fin nb)) : Prop :=
  ∀ x ∈ work, st.load x + mean allList ≤ ownedLoad globalList st.target x

/-- The two together, at the loop heads; the server that is being relieved counts as one
that is still to be visited. -/
def BoundsInv (globalList : Fin n → Nat) (allList : Fin nb → Nat) :
    RelabPoint nb × Relab n nb → Prop
  | (.outer idxInL, st) => KeepsMean globalList allList st ∧
      GapsBacked globalList allList st (st.subsetL.drop idxInL)
  | (.inner l idxInL _, st) => KeepsMean globalList allList st ∧
      GapsBacked globalList allList st (l :: st.subsetL.drop (idxInL + 1))

/-- A list of chosen entries takes from one server at most what it weighs. -/
theorem takenFrom_le_total (globalList : Fin n → Nat) (st : Relab n nb) {set : List (Fin n)}
    (hset : set.Nodup) (x : Fin nb) :
    takenFrom globalList st set x ≤ total globalList set := by
  rw [takenFrom_eq, total_eq_sum globalList hset]
  refine Finset.sum_le_sum_of_subset fun e he => ?_
  rw [Finset.mem_filter_univ] at he ⊢
  exact he.1

/-- Nothing is taken from a server none of whose entries are on offer. -/
theorem takenFrom_eq_zero {st st' : Relab n nb} {l s x : Fin nb} {set : List (Fin n)}
    (inv : LoopInv table globalList allList st) (spec : TurnSpec globalList l s st st' set)
    (hx : mean allList < allList x) (hfresh : ∀ e ∈ st.subsetSrv, table.idSrv e ≠ x) :
    takenFrom globalList st set x = 0 := by
  rw [takenFrom_eq]
  refine Finset.sum_eq_zero fun e he => ?_
  rw [Finset.mem_filter_univ] at he
  have howner := hfresh e (spec.subset e he.1)
  have hmoved := inv.moved e fun heq => howner (heq.symm.trans he.2)
  rw [he.2] at hmoved
  omega

/-- An overloaded server never gets an entry back. -/
theorem ownedLoad_turn_over {st st' : Relab n nb} {l s x : Fin nb} {set : List (Fin n)}
    (spec : TurnSpec globalList l s st st' set) (hs : allList s < mean allList)
    (hx : mean allList < allList x) :
    ownedLoad globalList st'.target x + takenFrom globalList st set x =
      ownedLoad globalList st.target x := by
  have howned := ownedLoad_turn spec x
  rwa [if_neg (by rintro rfl; omega), Nat.add_zero] at howned

/-- Serving `s` from `l` keeps the counted gaps backed, and every server at the mean if
the other ones are spared. -/
theorem boundsInv_serve (h : LoadInput table globalList allList) {st : Relab n nb}
    {l s : Fin nb} {idxInL idxInS : Nat}
    (hinv : RelabPointInv table globalList allList (.inner l idxInL idxInS, st))
    (hbounds : BoundsInv globalList allList (.inner l idxInL idxInS, st))
    (hget : st.subsetS[idxInS]? = some s)
    (hspare : SparesOthers globalList allList (.inner l idxInL idxInS, st)) :
    KeepsMean globalList allList (relabServe globalList l s idxInS st) ∧
      GapsBacked globalList allList (relabServe globalList l s idxInS st)
        (l :: st.subsetL.drop (idxInL + 1)) := by
  obtain ⟨inv, hl, hvisit⟩ := hinv
  obtain ⟨hmean, hgaps⟩ := hbounds
  have hs := inv.underS s (List.mem_of_getElem? hget)
  have spec := relabTurn_spec h.bounds inv hl hs
  obtain ⟨_, _, hload, htarget⟩ := relabServe_frame globalList l s idxInS st
  unfold KeepsMean GapsBacked
  rw [hload, htarget]
  have hbacked : ∀ x ∈ l :: st.subsetL.drop (idxInL + 1),
      (relabTurn globalList l s st).load x + mean allList ≤
        ownedLoad globalList (relabTurn globalList l s st).target x := by
    intro x hx
    have hold := hgaps x hx
    by_cases hxl : x = l
    · subst hxl
      have howned := ownedLoad_turn_over spec hs hl
      have htaken := takenFrom_le_total globalList st spec.nodup x
      rw [spec.loadL]
      omega
    · -- a server still to be visited: its load is not counted and its entries not on offer
      have hx' := List.mem_of_ne_of_mem hxl hx
      have hover := hvisit.overloaded x hx'
      have hzero := takenFrom_eq_zero inv spec hover fun e he => (hvisit.fresh e he x hx').ne
      have howned := ownedLoad_turn_over spec hs hover
      rw [spec.loadOther x (by rintro rfl; omega) hxl]
      omega
  refine ⟨fun x hx => ?_, hbacked⟩
  by_cases hxl : x = l
  · have hover := (inv.turn hl hs spec).overloaded x hx
    have := hbacked x (by simp [hxl])
    omega
  · have howned := ownedLoad_turn_over spec hs hx
    have := hspare s hget x hx hxl
    omega

theorem boundsInv_relabInit (h : LoadInput table globalList allList) :
    BoundsInv globalList allList (.outer 0, relabInit table allList) := by
  constructor
  · intro x hx
    exact le_of_lt (h.all_eq x ▸ hx)
  · intro x _
    rw [show (relabInit table allList).load x = _ from h.bounds.relativeLoad_eq x, h.all_eq x,
      show (relabInit table allList).target = table.idSrv from rfl]
    omega

/-- As long as every iteration spares the other overloaded servers, both hold. -/
theorem boundsInv_of_reach (h : LoadInput table globalList allList)
    (hspare : ∀ x, RelabReach table globalList allList x → SparesOthers globalList allList x)
    {x : RelabPoint nb × Relab n nb} (hx : RelabReach table globalList allList x) :
    BoundsInv globalList allList x := by
  apply Reach.invariant _ _ hx
  · exact boundsInv_relabInit h
  · rintro x y hreach hbounds ⟨_, hstep⟩
    have hinv := relabPointInv_of_reach h hreach
    have hx := hspare x hreach
    cases headStep_of_relabStep hstep with
    | fill hget =>
        obtain ⟨hidx, hget⟩ := List.getElem?_eq_some_iff.mp hget
        have hgaps := hbounds.2
        rw [List.drop_eq_getElem_cons hidx, hget] at hgaps
        exact ⟨hbounds.1, hgaps⟩
    | leave hget => exact ⟨hbounds.1, fun x hx => hbounds.2 x (List.mem_cons_of_mem _ hx)⟩
    | @emptied l s idxInL idxInS st hget hload =>
        obtain ⟨hmean, hgaps⟩ := boundsInv_serve h hinv hbounds hget hx
        refine ⟨hmean, fun x hmem => hgaps x (List.mem_cons_of_mem l ?_)⟩
        rw [drop_swapRemove] at hmem
        exact List.dropLast_subset _ hmem
    | @served l s idxInL idxInS st hget hload =>
        have hserve := boundsInv_serve h hinv hbounds hget hx
        rw [← (relabServe_frame globalList l s idxInS st).1] at hserve
        exact hserve

/-! ## What an overloaded server has lost it does not get back -/

theorem ownedLoad_step_over (h : LoadInput table globalList allList)
    {x y : RelabPoint nb × Relab n nb} (hx : RelabReach table globalList allList x)
    (hstep : relabStep table globalList x = some y) {s : Fin nb}
    (hs : mean allList < allList s) :
    ownedLoad globalList y.2.target s ≤ ownedLoad globalList x.2.target s := by
  have hinv := relabPointInv_of_reach h hx
  have hserve : ∀ {l r : Fin nb} {idxInL idxInS : Nat} {st : Relab n nb},
      RelabPointInv table globalList allList (.inner l idxInL idxInS, st) →
      st.subsetS[idxInS]? = some r →
      ownedLoad globalList (relabServe globalList l r idxInS st).target s ≤
        ownedLoad globalList st.target s := by
    rintro l r idxInL idxInS st ⟨inv, hl, _⟩ hget
    have hr := inv.underS r (List.mem_of_getElem? hget)
    have howned := ownedLoad_turn_over (relabTurn_spec h.bounds inv hl hr) hr hs
    rw [(relabServe_frame globalList l r idxInS st).2.2.2]
    omega
  cases headStep_of_relabStep hstep with
  | fill hget => exact Nat.le_refl _
  | leave hget => exact Nat.le_refl _
  | emptied hget hload => exact hserve hinv hget
  | served hget hload => exact hserve hinv hget

theorem ownedLoad_run_over (h : LoadInput table globalList allList)
    {x y : RelabPoint nb × Relab n nb} (hx : RelabReach table globalList allList x)
    (hxy : Relation.ReflTransGen (Steps fun (_ : Unit) => relabStep table globalList) x y)
    {s : Fin nb} (hs : mean allList < allList s) :
    ownedLoad globalList y.2.target s ≤ ownedLoad globalList x.2.target s := by
  induction hxy with
  | refl => exact Nat.le_refl _
  | tail hxz hzy ih =>
      obtain ⟨_, hstep⟩ := hzy
      exact (ownedLoad_step_over h (hx.trans hxz) hstep hs).trans ih

/-- All loop heads of a call lie on the way to the state after it. -/
theorem relabReach_to_end {x : RelabPoint nb × Relab n nb}
    (hx : RelabReach table globalList allList x) :
    ∃ y, y.2 = relabRun table globalList allList ∧
      Relation.ReflTransGen (Steps fun (_ : Unit) => relabStep table globalList) x y := by
  obtain ⟨idx, hend, hrun⟩ := relabReach_relabRun table globalList allList
  refine ⟨_, rfl, Reach.to_end ?_ hx hrun ?_⟩
  · rintro a b c ⟨_, hb⟩ ⟨_, hc⟩
    exact Option.some.inj (hb.symm.trans hc)
  · rintro y ⟨_, hstep⟩
    simp [relabStep, hend] at hstep

/-- An overloaded server that is not spared ends below the mean. -/
theorem sparesOthers_of_keepsMean (h : LoadInput table globalList allList)
    (hmean : KeepsMean globalList allList (relabRun table globalList allList))
    {x : RelabPoint nb × Relab n nb} (hx : RelabReach table globalList allList x) :
    SparesOthers globalList allList x := by
  obtain ⟨point, st⟩ := x
  cases point with
  | outer idxInL => trivial
  | inner l idxInL idxInS =>
      intro s hget r hr hrl
      obtain ⟨inv, hl, _⟩ := relabPointInv_of_reach h hx
      have hs := inv.underS s (List.mem_of_getElem? hget)
      have howned := ownedLoad_turn_over (relabTurn_spec h.bounds inv hl hs) hs hr
      obtain ⟨y, hstep, htarget⟩ : ∃ y, relabStep table globalList
          (.inner l idxInL idxInS, st) = some y ∧
            y.2.target = (relabTurn globalList l s st).target := by
        obtain ⟨_, _, _, htarget⟩ := relabServe_frame globalList l s idxInS st
        simp only [relabStep, hget]
        split <;> exact ⟨_, rfl, htarget⟩
      obtain ⟨z, hz, hyz⟩ := relabReach_to_end (hx.next hstep)
      have hlost := ownedLoad_run_over h (hx.next hstep) hyz hr
      have hend := hmean r hr
      rw [hz] at hlost
      rw [htarget] at hlost
      omega

/-! ## Loads after the call -/

/-- An overloaded server never ends with more than it had. -/
theorem LoopInv.ownedLoad_over_le {st : Relab n nb}
    (inv : LoopInv table globalList allList st) {l : Fin nb}
    (hl : mean allList < allList l) :
    ownedLoad globalList st.target l ≤ ownedLoad globalList table.idSrv l := by
  refine Finset.sum_le_sum_of_subset fun e he => ?_
  rw [Finset.mem_filter_univ] at he ⊢
  by_contra hne
  have hunder := (inv.moved e (fun heq => hne (heq ▸ he))).2
  rw [he] at hunder
  omega

/-- An underloaded server ends with its load and what it has gained. -/
theorem LoopInv.ownedLoad_under {st : Relab n nb}
    (inv : LoopInv table globalList allList st) {s : Fin nb}
    (hs : allList s < mean allList) :
    ownedLoad globalList st.target s = ownedLoad globalList table.idSrv s +
      ∑ e with st.target e = s ∧ table.idSrv e ≠ s, globalList e := by
  rw [ownedLoad_split globalList st.target table.idSrv s]
  refine congrArg (· + _) (Finset.sum_congr ?_ fun _ _ => rfl)
  ext e
  rw [Finset.mem_filter_univ, Finset.mem_filter_univ]
  refine ⟨fun he => he.2, fun he => ⟨?_, he⟩⟩
  by_contra hne
  have hover := (inv.moved e (fun heq => hne (heq ▸ he))).1
  rw [he] at hover
  omega

/-- Only the lower bound for overloaded servers can fail. -/
theorem neverWorse_iff_keepsMean (h : LoadInput table globalList allList) :
    NeverWorse table globalList allList ↔
      KeepsMean globalList allList (relabRun table globalList allList) := by
  obtain ⟨idx, _, hrun⟩ := relabReach_relabRun table globalList allList
  have inv := (relabPointInv_of_reach h hrun).1
  have htarget : (managerCalculateRelabTable table globalList allList).idSrv =
      (relabRun table globalList allList).target :=
    funext fun e => managerCalculateRelab_idSrv table globalList allList e
  unfold NeverWorse
  rw [htarget]
  refine ⟨fun hworse x hx => ((hworse x).1 hx).1, fun hmean s => ?_⟩
  have hall := h.all_eq s
  refine ⟨fun hs => ⟨hmean s hs, ?_⟩, fun hs => ?_, fun hs e => ?_⟩
  · rw [hall]
    exact inv.ownedLoad_over_le hs
  · have hsplit := inv.ownedLoad_under hs
    have hunder := inv.underloaded s hs
    have hgain := inv.gain s hs
    omega
  · by_cases he : (relabRun table globalList allList).target e = table.idSrv e
    · rw [he]
    · obtain ⟨hover, hunder⟩ := inv.moved e he
      refine ⟨fun heq => ?_, fun heq => ?_⟩
      · rw [heq] at hunder
        omega
      · rw [heq] at hover
        omega

/-- Let the manager's view be consistent with its table (`all_list` holds what the entries
of every server weigh, and the total fits in an `int`).  Then rebalancing makes no server
worse if and only if no iteration takes from an overloaded server, while another one is
being relieved, more than it still has above the mean. -/
theorem managerCalculateRelab_neverWorse_iff (h : LoadInput table globalList allList) :
    NeverWorse table globalList allList ↔
      ∀ x, RelabReach table globalList allList x → SparesOthers globalList allList x := by
  rw [neverWorse_iff_keepsMean h]
  constructor
  · exact fun hmean x hx => sparesOthers_of_keepsMean h hmean hx
  · intro hspare
    obtain ⟨idx, _, hrun⟩ := relabReach_relabRun table globalList allList
    exact (boundsInv_of_reach h hspare hrun).1

/-- In particular no server is made worse where every iteration chooses only entries that
are counted for the server being relieved. -/
theorem neverWorse_of_choosesOwn (h : LoadInput table globalList allList)
    (hown : ∀ x, RelabReach table globalList allList x → ChoosesOwn globalList x) :
    NeverWorse table globalList allList := by
  rw [neverWorse_iff_keepsMean h]
  obtain ⟨idx, _, hrun⟩ := relabReach_relabRun table globalList allList
  intro x hx
  have hover := (relabPointInv_of_reach h hrun).1.overloaded x hx
  have hbooks : (relabRun table globalList allList).load x =
      (ownedLoad globalList (relabRun table globalList allList).target x : Int) -
        mean allList := (booksBalance_iff h).mpr hown _ hrun x
  omega

/-- Server 0 has 5 too much and gives its entry of load 3 away; in the visit of server 1,
which has 2 too much, its other entry and the one it gave away are on offer, but only the
entry of load 2 fits. -/
theorem managerCalculateRelab_neverWorse_iff_three_servers :
    NeverWorse (mltInit 6 3) ![3, 2, 3, 12, 10, 0] ![15, 12, 3] ∧
      ∀ x, RelabReach (mltInit 6 3) ![3, 2, 3, 12, 10, 0] ![15, 12, 3] x →
        SparesOthers ![3, 2, 3, 12, 10, 0] ![15, 12, 3] x := by
  have hworse : NeverWorse (mltInit 6 3) ![3, 2, 3, 12, 10, 0] ![15, 12, 3] := by
    unfold NeverWorse
    decide +kernel
  have hinput : LoadInput (mltInit 6 3) ![3, 2, 3, 12, 10, 0] ![15, 12, 3] :=
    { all_eq := by decide
      total_lt := by decide }
  exact ⟨hworse, (managerCalculateRelab_neverWorse_iff hinput).mp hworse⟩

/-- Server 0 has 5 too much and gives entry 0 of load 4 away; then its entry 3
is still on offer in the visit of server 1, which has 3 too much, and server 0
ends with 18, below the mean of 20. -/
theorem exists_stray_entry_not_neverWorse :
    LoadInput (mltInit 100 3) (fun e => [4, 23, 12, 3, 0, 0, 18].getD e 0)
        ![25, 23, 12] ∧
      ¬ NeverWorse (mltInit 100 3) (fun e => [4, 23, 12, 3, 0, 0, 18].getD e 0)
        ![25, 23, 12] := by
  refine ⟨⟨by decide +kernel, by decide +kernel⟩, fun h => ?_⟩
  have hover := ((h 0).1 (by decide +kernel)).1
  exact absurd hover (by decide +kernel)

end MeDiE.Manager
