import MeDiE.Manager.RelabBooks

/-!
# When rebalancing leaves no move undone

A server that is removed from `subset_s` or `subset_l` has the last server put in its
place, which the loop then passes over; and entries that were moved stay in `subset_srv`
and may be chosen and counted again.  Without these two defects every pair of an
overloaded and an underloaded server has its turn, a turn takes what fits, and the gaps
only shrink afterwards.  So rebalancing is exhaustive as long as no stale entry is chosen
and no server is passed over to which, or from which, an entry would still fit.
-/

namespace MeDiE.Manager

open MeDiE.Table
open MeDiE.Verified.Greedy
open MeDiE.Verified.SwapRemove
open MeDiE.Verified.Transition

variable {n nb : Nat} {table : Mlt n (Fin nb)} {globalList : Fin n → Nat}
  {allList : Fin nb → Nat}

/-- After the call, no entry still owned by an overloaded server fits the gaps
that are left at its owner and at some underloaded server. -/
def Exhaustive (table : Mlt n (Fin nb)) (globalList : Fin n → Nat)
    (allList : Fin nb → Nat) : Prop :=
  ∀ e l s, mean allList < allList l → allList s < mean allList →
    table.idSrv e = l →
    (managerCalculateRelabTable table globalList allList).idSrv e = l →
    0 < globalList e →
    ¬ ((globalList e : Int) ≤ ownedLoad globalList
          (managerCalculateRelabTable table globalList allList).idSrv l - mean allList ∧
      (globalList e : Int) ≤ mean allList - ownedLoad globalList
          (managerCalculateRelabTable table globalList allList).idSrv s)

/-- Entry `e` is not idle and fits both gaps. -/
def FitsGaps (globalList : Fin n → Nat) (e : Fin n) (gapL gapS : Int) : Prop :=
  globalList e ≠ 0 ∧ (globalList e : Int) ≤ gapL ∧ (globalList e : Int) ≤ gapS

instance (globalList : Fin n → Nat) (e : Fin n) (gapL gapS : Int) :
    Decidable (FitsGaps globalList e gapL gapS) :=
  inferInstanceAs (Decidable (_ ∧ _))

/-- What a turn takes off `l` for `s`. -/
def turnLoad (globalList : Fin n → Nat) (l s : Fin nb) (st : Relab n nb) : Nat :=
  total globalList (turnSet globalList l s st)

/-- The turn for `l` and `s` leaves `l` no entry that would fit into `p`. -/
def NoneForTaker (globalList : Fin n → Nat) (l s : Fin nb) (st : Relab n nb) (p : Fin nb) :
    Prop :=
  ∀ e, st.target e = l → e ∉ turnSet globalList l s st →
    ¬ FitsGaps globalList e (st.load l - turnLoad globalList l s st) (-st.load p)

/-- After the turn for `l` and `s` no entry of `p` would fit into an underloaded server. -/
def NoneFromGiver (globalList : Fin n → Nat) (allList : Fin nb → Nat) (l s : Fin nb)
    (st : Relab n nb) (p : Fin nb) : Prop :=
  ∀ e x, st.target e = p → allList x < mean allList →
    ¬ FitsGaps globalList e (st.load p)
      (-st.load x - if x = s then (turnLoad globalList l s st : Int) else 0)

/-- At the head of the inner loop, if there is a next iteration: where it fills `s` up and
does not empty `l`, the server that is moved into the place of `s` could take no entry of
`l`; and where it empties `l`, the server that is moved into the place of `l` could give no
entry away. -/
def SkipsNone (globalList : Fin n → Nat) (allList : Fin nb → Nat) :
    RelabPoint nb × Relab n nb → Prop
  | (.outer _, _) => True
  | (.inner l idxInL idxInS, st) => ∀ s, st.subsetS[idxInS]? = some s →
      (-st.load s ≤ turnLoad globalList l s st → turnLoad globalList l s st < st.load l →
        ∀ p ∈ (st.subsetS.drop (idxInS + 1)).getLast?,
          NoneForTaker globalList l s st p) ∧
      (st.load l ≤ turnLoad globalList l s st →
        ∀ p ∈ (st.subsetL.drop (idxInL + 1)).getLast?,
          NoneFromGiver globalList allList l s st p)

/-! ## Pairs of servers that are done -/

/-- No entry that belongs to `l` fits the counted gaps of `l` and `s`. -/
def PairDone (globalList : Fin n → Nat) (st : Relab n nb) (l s : Fin nb) : Prop :=
  ∀ e, st.target e = l → ¬ FitsGaps globalList e (st.load l) (-st.load s)

theorem pairDone_of_emptied {st : Relab n nb} {l : Fin nb} (hload : st.load l ≤ 0)
    (s : Fin nb) : PairDone globalList st l s := by
  rintro e _ ⟨hne, hle, _⟩
  omega

theorem pairDone_of_filled {st : Relab n nb} {s : Fin nb} (hload : 0 ≤ st.load s)
    (l : Fin nb) : PairDone globalList st l s := by
  rintro e _ ⟨hne, _, hle⟩
  omega

section turn

variable {st st' : Relab n nb} {l s : Fin nb}

/-- A turn only takes entries from overloaded servers, and gaps only shrink. -/
theorem PairDone.turn {l' s' : Fin nb} (h : PairDone globalList st l' s')
    (spec : TurnSpec globalList l s st st' (turnSet globalList l s st))
    (hl : mean allList < allList l) (hs : allList s < mean allList)
    (hl' : mean allList < allList l') (hs' : allList s' < mean allList) :
    PairDone globalList st' l' s' := by
  have hloadl : st'.load l' ≤ st.load l' := by
    by_cases hx : l' = l
    · subst hx
      rw [spec.loadL]
      omega
    · rw [spec.loadOther l' (by rintro rfl; omega) hx]
  have hloads : st.load s' ≤ st'.load s' := by
    by_cases hx : s' = s
    · subst hx
      rw [spec.loadS]
      omega
    · rw [spec.loadOther s' hx (by rintro rfl; omega)]
  rintro e he ⟨hne, hfitl, hfits⟩
  rw [spec.target] at he
  by_cases hmem : e ∈ turnSet globalList l s st
  · rw [if_pos hmem] at he
    subst he
    omega
  · rw [if_neg hmem] at he
    exact h e he ⟨hne, by omega, by omega⟩

/-- The turn for `l` and `s` leaves nothing that would fit the two. -/
theorem pairDone_turn (spec : TurnSpec globalList l s st st' (turnSet globalList l s st))
    (hls : l ≠ s) (hoffer : ∀ e, st.target e = l → e ∈ st.subsetSrv) :
    PairDone globalList st' l s := by
  rintro e he ⟨hne, hfitl, hfits⟩
  rw [spec.target] at he
  by_cases hmem : e ∈ turnSet globalList l s st
  · rw [if_pos hmem] at he
    exact hls he.symm
  · rw [if_neg hmem] at he
    have hmax := spec.maximal e (hoffer e he) hmem
    rw [spec.loadL] at hfitl
    rw [spec.loadS] at hfits
    push_cast at hmax
    omega

/-- `p` is passed over, but it could have taken nothing. -/
theorem NoneForTaker.pairDone {p : Fin nb} (h : NoneForTaker globalList l s st p)
    (spec : TurnSpec globalList l s st st' (turnSet globalList l s st))
    (hl : mean allList < allList l) (hs : allList s < mean allList)
    (hp : allList p < mean allList) : PairDone globalList st' l p := by
  have hload : st.load p ≤ st'.load p := by
    by_cases hx : p = s
    · subst hx
      rw [spec.loadS]
      omega
    · rw [spec.loadOther p hx (by rintro rfl; omega)]
  rintro e he ⟨hne, hfitl, hfits⟩
  rw [spec.target] at he
  by_cases hmem : e ∈ turnSet globalList l s st
  · rw [if_pos hmem] at he
    subst he
    omega
  · rw [if_neg hmem] at he
    rw [spec.loadL] at hfitl
    exact h e he hmem ⟨hne, hfitl, by omega⟩

/-- `p` is passed over, but it could have given nothing away. -/
theorem NoneFromGiver.pairDone {p : Fin nb}
    (h : NoneFromGiver globalList allList l s st p)
    (spec : TurnSpec globalList l s st st' (turnSet globalList l s st))
    (hl : mean allList < allList l) (hs : allList s < mean allList)
    (hp : mean allList < allList p) {x : Fin nb} (hx : allList x < mean allList) :
    PairDone globalList st' p x := by
  have hloadp : st'.load p ≤ st.load p := by
    by_cases heq : p = l
    · subst heq
      rw [spec.loadL]
      omega
    · rw [spec.loadOther p (by rintro rfl; omega) heq]
  have hloadx : st'.load x =
      st.load x + if x = s then (turnLoad globalList l s st : Int) else 0 := by
    by_cases heq : x = s
    · subst heq
      rw [spec.loadS, if_pos rfl]
      rfl
    · rw [spec.loadOther x heq (by rintro rfl; omega), if_neg heq, Int.add_zero]
  rintro e he ⟨hne, hfitp, hfitx⟩
  rw [spec.target] at he
  by_cases hmem : e ∈ turnSet globalList l s st
  · rw [if_pos hmem] at he
    subst he
    omega
  · rw [if_neg hmem] at he
    exact h e x he hx ⟨hne, by omega, by omega⟩

end turn

/-! ## Which pairs still have their turn -/

/-- An underloaded server is out of `subset_s` only when it is filled up. -/
def FilledOrThere (allList : Fin nb → Nat) (st : Relab n nb) : Prop :=
  ∀ s, allList s < mean allList → s ∈ st.subsetS ∨ 0 ≤ st.load s

/-- At the loop heads: every pair is done or still has its turn. -/
def TurnsLeft (table : Mlt n (Fin nb)) (globalList : Fin n → Nat) (allList : Fin nb → Nat) :
    RelabPoint nb × Relab n nb → Prop
  | (.outer idxInL, st) => FilledOrThere allList st ∧
      ∀ l s, mean allList < allList l → allList s < mean allList →
        l ∈ st.subsetL.drop idxInL ∨ PairDone globalList st l s
  | (.inner l₀ idxInL idxInS, st) => FilledOrThere allList st ∧
      (∀ e, table.idSrv e = l₀ → e ∈ st.subsetSrv) ∧
      ∀ l s, mean allList < allList l → allList s < mean allList →
        l ∈ st.subsetL.drop (idxInL + 1) ∨ (l = l₀ ∧ s ∈ st.subsetS.drop idxInS) ∨
          PairDone globalList st l s

theorem turnsLeft_relabInit (h : LoadInput table globalList allList) :
    TurnsLeft table globalList allList (.outer 0, relabInit table allList) :=
  ⟨fun s hs => Or.inl ((mem_relabInit_subsetS h.bounds s).mpr hs),
    fun l _ hl _ => Or.inl ((mem_relabInit_subsetL h.bounds l).mpr hl)⟩

theorem TurnsLeft.fill {idxInL : Nat} {l₀ : Fin nb} {st : Relab n nb}
    (h : TurnsLeft table globalList allList (.outer idxInL, st))
    (hget : st.subsetL[idxInL]? = some l₀) :
    TurnsLeft table globalList allList (.inner l₀ idxInL 0, relabFill table l₀ st) := by
  obtain ⟨hthere, hpairs⟩ := h
  obtain ⟨hidx, hget⟩ := List.getElem?_eq_some_iff.mp hget
  have hthere' : FilledOrThere allList (relabFill table l₀ st) := fun s hs =>
    (hthere s hs).imp_left (by simp [relabFill])
  refine ⟨hthere', ?_, ?_⟩
  · intro e he
    simp [relabFill, he]
  · intro l s hl hs
    rcases hpairs l s hl hs with hmem | hdone
    · rw [List.drop_eq_getElem_cons hidx, hget, List.mem_cons] at hmem
      rcases hmem with rfl | hmem
      · rcases hthere' s hs with hin | hfilled
        · exact Or.inr (Or.inl ⟨rfl, hin⟩)
        · exact Or.inr (Or.inr (pairDone_of_filled hfilled l))
      · exact Or.inl hmem
    · exact Or.inr (Or.inr hdone)

/-- Behind the place of the removed server only the last one is lost. -/
theorem mem_drop_swapRemove {α : Type} {list : List α} {i : Nat} {x : α}
    (hx : x ∈ list.drop (i + 1)) :
    x ∈ (swapRemove list i).drop (i + 1) ∨ x ∈ (list.drop (i + 1)).getLast? := by
  rw [drop_swapRemove]
  cases hlast : (list.drop (i + 1)).getLast? with
  | none => simp [List.getLast?_eq_none_iff.mp hlast] at hx
  | some y =>
      rw [← List.dropLast_append_getLast? y hlast, List.mem_append, List.mem_singleton] at hx
      exact hx.imp_right fun heq => by rw [heq, Option.mem_some_iff]

theorem FilledOrThere.serve {st : Relab n nb} {l s : Fin nb} {idxInS : Nat}
    (h : FilledOrThere allList st) (hget : st.subsetS[idxInS]? = some s)
    (spec : TurnSpec globalList l s st (relabTurn globalList l s st)
      (turnSet globalList l s st)) (hl : mean allList < allList l) :
    FilledOrThere allList (relabServe globalList l s idxInS st) := by
  intro x hx
  obtain ⟨_, _, hload, _⟩ := relabServe_frame globalList l s idxInS st
  rw [hload]
  have hgrow : 0 ≤ st.load x → 0 ≤ (relabTurn globalList l s st).load x := by
    intro hold
    by_cases heq : x = s
    · subst heq
      rw [spec.loadS]
      omega
    · rwa [spec.loadOther x heq (by rintro rfl; omega)]
  rcases h x hx with hmem | hfilled
  · by_cases hs : 0 ≤ (relabTurn globalList l s st).load s
    · by_cases hxs : x = s
      · exact Or.inr (hxs ▸ hs)
      · left
        obtain ⟨hidx, hget⟩ := List.getElem?_eq_some_iff.mp hget
        obtain ⟨i, hi, hix⟩ := List.getElem_of_mem hmem
        simp only [relabServe, if_pos hs, spec.subsetS]
        rw [(swapRemove_perm st.subsetS hidx).mem_iff, List.mem_eraseIdx_iff_getElem]
        refine ⟨i, hi, ?_, hix⟩
        rintro rfl
        exact hxs (hix.symm.trans hget)
    · left
      simp only [relabServe, if_neg hs, spec.subsetS]
      exact hmem
  · exact Or.inr (hgrow hfilled)

/-- An iteration that empties `l`. -/
theorem TurnsLeft.emptied (h : LoadInput table globalList allList) {st : Relab n nb}
    {l s : Fin nb} {idxInL idxInS : Nat}
    (hinv : RelabPointInv table globalList allList (.inner l idxInL idxInS, st))
    (hleft : TurnsLeft table globalList allList (.inner l idxInL idxInS, st))
    (hskip : SkipsNone globalList allList (.inner l idxInL idxInS, st))
    (hget : st.subsetS[idxInS]? = some s)
    (hload : (relabTurn globalList l s st).load l ≤ 0) :
    TurnsLeft table globalList allList (.outer (idxInL + 1),
      { relabServe globalList l s idxInS st with
        subsetL := swapRemove st.subsetL idxInL }) := by
  obtain ⟨inv, hl, _⟩ := hinv
  obtain ⟨hthere, _, hpairs⟩ := hleft
  have hs := inv.underS s (List.mem_of_getElem? hget)
  have spec := relabTurn_spec h.bounds inv hl hs
  obtain ⟨_, _, hloads, htarget⟩ := relabServe_frame globalList l s idxInS st
  refine ⟨hthere.serve hget spec hl, fun l' s' hl' hs' => ?_⟩
  have hdone : l' ∈ (swapRemove st.subsetL idxInL).drop (idxInL + 1) ∨
      PairDone globalList (relabTurn globalList l s st) l' s' := by
    rcases hpairs l' s' hl' hs' with hmem | ⟨rfl, _⟩ | hdone
    · rcases mem_drop_swapRemove hmem with hmem | hlast
      · exact Or.inl hmem
      · have hgap := spec.loadL
        have hgiver := (hskip s hget).2 (by unfold turnLoad; omega) l' hlast
        exact Or.inr (hgiver.pairDone spec hl hs hl' hs')
    · exact Or.inr (pairDone_of_emptied hload s')
    · exact Or.inr (hdone.turn spec hl hs hl' hs')
  unfold PairDone at hdone ⊢
  rw [hloads, htarget]
  exact hdone

/-- An iteration after which `l` has still something to give. -/
theorem TurnsLeft.served (h : LoadInput table globalList allList) {st : Relab n nb}
    {l s : Fin nb} {idxInL idxInS : Nat}
    (hinv : RelabPointInv table globalList allList (.inner l idxInL idxInS, st))
    (hleft : TurnsLeft table globalList allList (.inner l idxInL idxInS, st))
    (hskip : SkipsNone globalList allList (.inner l idxInL idxInS, st))
    (hget : st.subsetS[idxInS]? = some s)
    (hload : 0 < (relabTurn globalList l s st).load l) :
    TurnsLeft table globalList allList
      (.inner l idxInL (idxInS + 1), relabServe globalList l s idxInS st) := by
  obtain ⟨inv, hl, _⟩ := hinv
  obtain ⟨hthere, hoffer, hpairs⟩ := hleft
  have hs := inv.underS s (List.mem_of_getElem? hget)
  have hls : l ≠ s := fun heq => by subst heq; omega
  have spec := relabTurn_spec h.bounds inv hl hs
  obtain ⟨hL, hsrv, hloads, htarget⟩ := relabServe_frame globalList l s idxInS st
  have hown : ∀ e, st.target e = l → table.idSrv e = l := by
    intro e he
    by_contra hne
    have hmoved := inv.moved e fun heq => hne (heq.symm.trans he)
    rw [he] at hmoved
    omega
  -- the servers behind `s` keep their place, except for the one that is passed over
  have hrest : ∀ x ∈ st.subsetS.drop (idxInS + 1), allList x < mean allList →
      x ∈ (relabServe globalList l s idxInS st).subsetS.drop (idxInS + 1) ∨
        PairDone globalList (relabTurn globalList l s st) l x := by
    intro x hx hunder
    by_cases hfilled : 0 ≤ (relabTurn globalList l s st).load s
    · simp only [relabServe, if_pos hfilled, spec.subsetS]
      rcases mem_drop_swapRemove hx with hmem | hlast
      · exact Or.inl hmem
      · have hgapL := spec.loadL
        have hgapS := spec.loadS
        have htaker := (hskip s hget).1 (by unfold turnLoad; omega)
          (by unfold turnLoad; omega) x hlast
        exact Or.inr (htaker.pairDone spec hl hs hunder)
    · simp only [relabServe, if_neg hfilled, spec.subsetS]
      exact Or.inl hx
  refine ⟨hthere.serve hget spec hl, fun e he => (hsrv e).mpr (hoffer e he),
    fun l' s' hl' hs' => ?_⟩
  have hdone : l' ∈ st.subsetL.drop (idxInL + 1) ∨
      (l' = l ∧ s' ∈ (relabServe globalList l s idxInS st).subsetS.drop (idxInS + 1)) ∨
      PairDone globalList (relabTurn globalList l s st) l' s' := by
    rcases hpairs l' s' hl' hs' with hmem | ⟨rfl, hmem⟩ | hdone
    · exact Or.inl hmem
    · obtain ⟨hidx, hget'⟩ := List.getElem?_eq_some_iff.mp hget
      rw [List.drop_eq_getElem_cons hidx, hget', List.mem_cons] at hmem
      rcases hmem with rfl | hmem
      · exact Or.inr (Or.inr (pairDone_turn spec hls fun e he => hoffer e (hown e he)))
      · exact Or.inr ((hrest s' hmem hs').imp_left fun hmem => ⟨rfl, hmem⟩)
    · exact Or.inr (Or.inr (hdone.turn spec hl hs hl' hs'))
  unfold PairDone at hdone ⊢
  rw [hL, hloads, htarget]
  exact hdone

theorem turnsLeft_of_reach (h : LoadInput table globalList allList)
    (hskip : ∀ x, RelabReach table globalList allList x → SkipsNone globalList allList x)
    {x : RelabPoint nb × Relab n nb} (hx : RelabReach table globalList allList x) :
    TurnsLeft table globalList allList x := by
  apply Reach.invariant _ _ hx
  · exact turnsLeft_relabInit h
  · rintro x y hreach hleft ⟨_, hstep⟩
    have hinv := relabPointInv_of_reach h hreach
    have hskip := hskip x hreach
    cases headStep_of_relabStep hstep with
    | fill hget => exact hleft.fill hget
    | leave hget =>
        obtain ⟨hthere, _, hpairs⟩ := hleft
        rw [List.getElem?_eq_none_iff] at hget
        rw [List.drop_eq_nil_of_le hget] at hpairs
        exact ⟨hthere, fun l s hl hs => (hpairs l s hl hs).imp_right
          fun hdone => hdone.resolve_left fun hmem => List.not_mem_nil hmem.2⟩
    | emptied hget hload => exact hleft.emptied h hinv hskip hget hload
    | served hget hload => exact hleft.served h hinv hskip hget hload

/-! ## The whole call -/

/-- Let the manager's view be consistent with its table.  If every iteration chooses only
entries that are counted for the server being relieved (no stale entry is chosen), and no
server is passed over to which or from which an entry would still fit, then rebalancing is
exhaustive. -/
theorem managerCalculateRelab_exhaustive (h : LoadInput table globalList allList)
    (hown : ∀ x, RelabReach table globalList allList x → ChoosesOwn globalList x)
    (hskip : ∀ x, RelabReach table globalList allList x → SkipsNone globalList allList x) :
    Exhaustive table globalList allList := by
  obtain ⟨idx, hend, hrun⟩ := relabReach_relabRun table globalList allList
  have hbooks : ∀ s, (relabRun table globalList allList).load s =
      (ownedLoad globalList (relabRun table globalList allList).target s : Int) -
        mean allList := (booksBalance_iff h).mpr hown _ hrun
  have hpairs := (turnsLeft_of_reach h hskip hrun).2
  rw [List.getElem?_eq_none_iff] at hend
  rw [List.drop_eq_nil_of_le hend] at hpairs
  have htarget : (managerCalculateRelabTable table globalList allList).idSrv =
      (relabRun table globalList allList).target :=
    funext fun e => managerCalculateRelab_idSrv table globalList allList e
  intro e l s hl hs _ hstill hpos hfit
  rw [htarget] at hstill hfit
  have hdone := (hpairs l s hl hs).resolve_left List.not_mem_nil
  refine hdone e hstill ⟨by omega, ?_, ?_⟩
  · rw [hbooks]
    exact hfit.1
  · rw [hbooks]
    omega

/-- The two conditions on a concrete call are read off its run. -/
instance decidableChoosesOwn (globalList : Fin n → Nat) :
    DecidablePred (@ChoosesOwn n nb globalList)
  | (.outer _, _) => inferInstanceAs (Decidable True)
  | (.inner l _ idxInS, st) => inferInstanceAs (Decidable (∀ s, st.subsetS[idxInS]? = some s →
      ∀ e ∈ turnSet globalList l s st, st.target e = l))

instance (globalList : Fin n → Nat) (l s : Fin nb) (st : Relab n nb) (p : Fin nb) :
    Decidable (NoneForTaker globalList l s st p) :=
  inferInstanceAs (Decidable (∀ _, _ → _ → ¬ _))

instance (globalList : Fin n → Nat) (allList : Fin nb → Nat) (l s : Fin nb)
    (st : Relab n nb) (p : Fin nb) :
    Decidable (NoneFromGiver globalList allList l s st p) :=
  inferInstanceAs (Decidable (∀ _ _, _ → _ → ¬ _))

instance decidableSkipsNone (globalList : Fin n → Nat) (allList : Fin nb → Nat) :
    DecidablePred (SkipsNone globalList allList)
  | (.outer _, _) => inferInstanceAs (Decidable True)
  | (.inner _ _ idxInS, st) => inferInstanceAs
      (Decidable (∀ s, st.subsetS[idxInS]? = some s →
        (_ → _ → ∀ p ∈ _, NoneForTaker globalList _ s st p) ∧
          (_ → ∀ p ∈ _, NoneFromGiver globalList allList _ s st p)))

/-- Server 0 has 9 too much.  Its entry of load 5 fills server 1 up, server 3 is moved into
that place and passed over, and the entry of load 2 goes to server 2; the entry of load 12
would have fitted nowhere. -/
theorem managerCalculateRelab_exhaustive_four_servers :
    Exhaustive (mltInit 12 4) ![5, 5, 7, 9, 2, 0, 0, 0, 12, 0, 0, 0] ![19, 5, 7, 9] :=
  managerCalculateRelab_exhaustive
    { all_eq := by decide
      total_lt := by decide }
    (fun _ => reach_of_holdsAlong 9 (by decide +kernel))
    (fun _ => reach_of_holdsAlong 9 (by decide +kernel))

/-- Server 0 has 4 too much in entries of load 2, and servers 1 and 2 have room
for 2 each.  Server 1 is filled up and removed, server 2 is moved into its place
and passed over, and entry 3 stays where it is. -/
theorem exists_skipped_server_not_exhaustive :
    LoadInput (mltInit 100 3) (fun e => [2, 0, 0, 2, 0, 0, 2].getD e 0) ![6, 0, 0] ∧
      ¬ Exhaustive (mltInit 100 3) (fun e => [2, 0, 0, 2, 0, 0, 2].getD e 0)
        ![6, 0, 0] := by
  refine ⟨⟨by decide +kernel, by decide +kernel⟩, fun h => ?_⟩
  exact h 3 0 2 (by decide +kernel) (by decide +kernel) (by decide +kernel)
    (by decide +kernel) (by decide +kernel) (by decide +kernel)

end MeDiE.Manager
