import MeDiE.Manager.RelabLoops

/-!
# Do the loads follow the targets?

The loops of `manager_calculate_relab` keep `load[]` and `target[]` side by side: an
entry that is given to `s` is added to the load of `s` and taken from the load of the
server `l` that is being relieved.  But the candidates in `subset_srv` are never taken
out again, so an entry may be chosen that is counted for another server: for one that
it was given to before, or for an overloaded server visited before.

The loops are run here one iteration at a time, so that the states in between can be
spoken about.
-/

namespace MeDiE.Manager

open MeDiE.Table
open MeDiE.Verified.Greedy
open MeDiE.Verified.SwapRemove
open MeDiE.Verified.Transition

variable {n nb : Nat} {table : Mlt n (Fin nb)} {globalList : Fin n → Nat}
  {allList : Fin nb → Nat}

/-! ## The books -/

/-- The load of every server is what its entries weigh, less the mean. -/
def BooksBalance (globalList : Fin n → Nat) (allList : Fin nb → Nat) (st : Relab n nb) : Prop :=
  ∀ s, st.load s = (ownedLoad globalList st.target s : Int) - mean allList

/-- At the head of the inner loop: if there is a next iteration, the entries that it
chooses are all counted for the server that is being relieved. -/
def ChoosesOwn (globalList : Fin n → Nat) : RelabPoint nb × Relab n nb → Prop
  | (.outer _, _) => True
  | (.inner l _ idxInS, st) => ∀ s, st.subsetS[idxInS]? = some s →
      ∀ e ∈ turnSet globalList l s st, st.target e = l

/-- What is chosen of the entries of `x`. -/
def takenFrom (globalList : Fin n → Nat) (st : Relab n nb) (set : List (Fin n)) (x : Fin nb) :
    Nat :=
  ∑ e ∈ set.toFinset with st.target e = x, globalList e

theorem takenFrom_eq (globalList : Fin n → Nat) (st : Relab n nb) (set : List (Fin n))
    (x : Fin nb) :
    takenFrom globalList st set x = ∑ e with e ∈ set ∧ st.target e = x, globalList e := by
  unfold takenFrom
  congr 1
  ext e
  simp

theorem total_eq_sum (globalList : Fin n → Nat) {set : List (Fin n)} (hset : set.Nodup) :
    total globalList set = ∑ e with e ∈ set, globalList e := by
  have hfilter : Finset.univ.filter (· ∈ set) = set.toFinset := by
    ext e
    simp
  rw [hfilter, List.sum_toFinset globalList hset]
  rfl

/-- A turn gives `s` what is chosen and takes it from those that had it. -/
theorem ownedLoad_turn {l s : Fin nb} {st st' : Relab n nb} {set : List (Fin n)}
    (spec : TurnSpec globalList l s st st' set) (x : Fin nb) :
    ownedLoad globalList st'.target x + takenFrom globalList st set x =
      ownedLoad globalList st.target x + if x = s then total globalList set else 0 := by
  have hgain : (if x = s then total globalList set else 0) =
      ∑ e with e ∈ set ∧ x = s, globalList e := by
    by_cases hxs : x = s
    · simp [hxs, total_eq_sum globalList spec.nodup]
    · simp [hxs]
  rw [hgain, ownedLoad, ownedLoad, takenFrom_eq]
  simp only [Finset.sum_filter]
  rw [← Finset.sum_add_distrib, ← Finset.sum_add_distrib]
  apply Finset.sum_congr rfl
  intro e _
  rw [spec.target e]
  by_cases hmem : e ∈ set
  · by_cases hxs : x = s
    · subst hxs
      simp [hmem, Nat.add_comm]
    · have hsx : ¬ s = x := fun heq => hxs heq.symm
      simp [hmem, hxs, hsx]
  · simp [hmem]

/-- What is chosen is all taken from `l` if and only if it was all counted for `l`. -/
theorem takenFrom_eq_iff {l s : Fin nb} {st st' : Relab n nb} {set : List (Fin n)}
    (spec : TurnSpec globalList l s st st' set) :
    (∀ x, takenFrom globalList st set x = if x = l then total globalList set else 0) ↔
      ∀ e ∈ set, st.target e = l := by
  constructor
  · intro htaken e he
    by_contra hne
    have hzero := htaken (st.target e)
    rw [if_neg hne, takenFrom_eq, Finset.sum_eq_zero_iff] at hzero
    exact spec.neZero e he (hzero e (by simp [he]))
  · intro hown x
    by_cases hx : x = l
    · rw [if_pos hx, total_eq_sum globalList spec.nodup, takenFrom_eq]
      congr 1
      ext e
      simp only [Finset.mem_filter_univ, and_iff_left_iff_imp]
      exact fun he => (hown e he).trans hx.symm
    · rw [if_neg hx, takenFrom_eq]
      apply Finset.sum_eq_zero
      intro e he
      rw [Finset.mem_filter_univ] at he
      exact absurd ((hown e he.1).symm.trans he.2).symm hx

/-- An iteration keeps the books if and only if it chooses only entries of `l`. -/
theorem booksBalance_turn_iff {l s : Fin nb} (hls : l ≠ s) {st st' : Relab n nb}
    {set : List (Fin n)} (hbooks : BooksBalance globalList allList st)
    (spec : TurnSpec globalList l s st st' set) :
    BooksBalance globalList allList st' ↔ ∀ e ∈ set, st.target e = l := by
  rw [← takenFrom_eq_iff spec, BooksBalance]
  apply forall_congr'
  intro x
  have hx := hbooks x
  have howned := ownedLoad_turn spec x
  by_cases hxs : x = s
  · subst hxs
    rw [if_pos rfl] at howned
    rw [spec.loadS, if_neg (Ne.symm hls)]
    omega
  · rw [if_neg hxs] at howned
    by_cases hxl : x = l
    · subst hxl
      rw [spec.loadL, if_pos rfl]
      omega
    · rw [spec.loadOther x hxs hxl, if_neg hxl]
      omega

theorem booksBalance_relabInit (h : LoadInput table globalList allList) :
    BooksBalance globalList allList (relabInit table allList) := by
  intro s
  rw [show (relabInit table allList).load s = _ from h.bounds.relativeLoad_eq s, h.all_eq]
  rfl

/-- A step between two loop heads keeps the books if and only if it chooses only entries of
the server that is being relieved. -/
theorem booksBalance_step_iff (h : LoadInput table globalList allList)
    {x y : RelabPoint nb × Relab n nb} (hinv : RelabPointInv table globalList allList x)
    (hbooks : BooksBalance globalList allList x.2)
    (hstep : relabStep table globalList x = some y) :
    BooksBalance globalList allList y.2 ↔ ChoosesOwn globalList x := by
  have hserve : ∀ {l s : Fin nb} {idxInL idxInS : Nat} {st : Relab n nb},
      RelabPointInv table globalList allList (.inner l idxInL idxInS, st) →
      BooksBalance globalList allList st → st.subsetS[idxInS]? = some s →
      (BooksBalance globalList allList (relabServe globalList l s idxInS st) ↔
        ChoosesOwn globalList (.inner l idxInL idxInS, st)) := by
    rintro l s idxInL idxInS st ⟨inv, hl, _⟩ hbooks hget
    have hs := inv.underS s (List.mem_of_getElem? hget)
    have hls : l ≠ s := fun heq => by subst heq; omega
    have hiff := booksBalance_turn_iff hls hbooks (relabTurn_spec h.bounds inv hl hs)
    obtain ⟨_, _, hload, htarget⟩ := relabServe_frame globalList l s idxInS st
    unfold BooksBalance at hiff ⊢
    rw [hload, htarget, hiff, ChoosesOwn]
    simp [hget]
  cases headStep_of_relabStep hstep with
  | fill hget => exact ⟨fun _ => trivial, fun _ => hbooks⟩
  | leave hget => exact ⟨fun _ s hs => by simp [hget] at hs, fun _ => hbooks⟩
  | emptied hget hload => exact hserve hinv hbooks hget
  | served hget hload => exact hserve hinv hbooks hget

/-- In every call with a consistent view, the loads follow the targets at all loop heads if
and only if every iteration chooses only entries that are counted for the server that is
being relieved. -/
theorem booksBalance_iff (h : LoadInput table globalList allList) :
    (∀ x, RelabReach table globalList allList x → BooksBalance globalList allList x.2) ↔
      ∀ x, RelabReach table globalList allList x → ChoosesOwn globalList x := by
  constructor
  · intro hbooks x hx
    cases hnext : relabStep table globalList x with
    | none =>
        obtain ⟨point, st⟩ := x
        cases point with
        | outer idxInL => trivial
        | inner l idxInL idxInS =>
            intro s hget
            simp only [relabStep, hget] at hnext
            split at hnext <;> cases hnext
    | some y =>
        exact (booksBalance_step_iff h (relabPointInv_of_reach h hx) (hbooks x hx) hnext).mp
          (hbooks y (hx.next hnext))
  · intro hown x hx
    apply Reach.invariant (I := fun x => BooksBalance globalList allList x.2) _ _ hx
    · exact booksBalance_relabInit h
    · rintro x y hreach hbooks ⟨_, hstep⟩
      exact (booksBalance_step_iff h (relabPointInv_of_reach h hreach) hbooks hstep).mpr
        (hown x hreach)

theorem booksBalance_iff_two_servers :
    (∀ x, RelabReach (mltInit 4 2) ![2, 0, 1, 0] ![3, 0] x →
        BooksBalance ![2, 0, 1, 0] ![3, 0] x.2) ↔
      ∀ x, RelabReach (mltInit 4 2) ![2, 0, 1, 0] ![3, 0] x → ChoosesOwn ![2, 0, 1, 0] x :=
  booksBalance_iff
    { all_eq := by decide
      total_lt := by decide }

/-- Server 0 has four entries of load 5, the mean is 5, and the other three servers have
nothing.  After two iterations entry 0 has been given to server 1 and then to server 2,
and its load is counted for both. -/
theorem exists_load_counted_twice :
    ¬ ∀ (n nb : Nat) (table : Mlt n (Fin nb)) (globalList : Fin n → Nat)
      (allList : Fin nb → Nat), LoadInput table globalList allList →
      ∀ x, RelabReach table globalList allList x → BooksBalance globalList allList x.2 := by
  intro h
  have hinput : LoadInput (mltInit 13 4) (fun e => if e % 4 = 0 then 5 else 0)
      ![20, 0, 0, 0] := by
    constructor <;> decide +kernel
  -- server 1 has a load of 0, as if it had an entry, but it has none
  have hrun : (run (fun (_ : Unit) =>
      relabStep (mltInit 13 4) (fun e => if e % 4 = 0 then 5 else 0)) [(), (), ()]
      (.outer 0, relabInit (mltInit 13 4) ![20, 0, 0, 0])).map
      (fun y => (y.2.load 1, ownedLoad (fun e => if e % 4 = 0 then 5 else 0) y.2.target 1)) =
      some (0, 0) := by
    decide +kernel
  obtain ⟨y, hy, hload⟩ := Option.map_eq_some_iff.mp hrun
  obtain ⟨hload, howned⟩ := Prod.mk.inj hload
  have hbooks := h 13 4 _ _ _ hinput y (reach_of_run [(), (), ()] Reach.start hy) 1
  rw [hload, howned] at hbooks
  exact absurd hbooks (by decide +kernel)

end MeDiE.Manager
