import MeDiE.Verified.Transition
import Mathlib.Order.WellFounded

/-!
# Fair runs and ranks

A run that goes on for ever is a sequence of labels and a sequence of states.  It is
fair to a label if the label is taken after all once it stays possible.

To show that a goal is reached, give every state a rank that no step raises before the
goal is reached, and in every state a helpful label: taking it lowers the rank, and it
stays helpful until the rank goes down.  No two states need to have the same label.
-/

namespace MeDiE.Verified.Fair

open MeDiE.Verified.Transition

variable {S L R : Type}

/-- A run without end, all of whose steps meet a condition. -/
structure IsRun (step : L → S → Option S) (good : L → S → Prop) (init : S)
    (l : ℕ → L) (x : ℕ → S) : Prop where
  start : x 0 = init
  next : ∀ i, step (l i) (x i) = some (x (i + 1))
  good : ∀ i, good (l i) (x i)

/-- The label leads on, and meets the condition. -/
def Enabled (step : L → S → Option S) (good : L → S → Prop) (a : L) (x : S) : Prop :=
  (step a x).isSome ∧ good a x

/-- Once the label stays possible it is taken. -/
def WeaklyFair (step : L → S → Option S) (good : L → S → Prop) (l : ℕ → L) (x : ℕ → S)
    (a : L) : Prop :=
  ∀ i, (∀ j, i ≤ j → Enabled step good a (x j)) → ∃ j, i ≤ j ∧ l j = a

section Run

variable {step : L → S → Option S} {good : L → S → Prop} {init : S} {l : ℕ → L}
  {x : ℕ → S}

/-- Every state of a run is reached. -/
theorem IsRun.reach (run : IsRun step good init l x) (i : ℕ) :
    Reach init (StepsIf step good) (x i) := by
  induction i with
  | zero =>
      rw [run.start]
      exact Reach.start
  | succ i ih => exact ih.next ⟨l i, run.good i, run.next i⟩

/-- What holds at a position and is kept by every step up to a later one holds there. -/
theorem keep {P : ℕ → Prop} {i j : ℕ} (hij : i ≤ j) (hi : P i)
    (hstep : ∀ k, i ≤ k → k < j → P k → P (k + 1)) : P j := by
  induction j, hij using Nat.le_induction with
  | base => exact hi
  | succ j hij ih =>
      exact hstep j hij (Nat.lt_succ_self j) (ih fun k hk hkj =>
        hstep k hk (Nat.lt_succ_of_lt hkj))

end Run

/-! ## The rule -/

section Rule

variable [PartialOrder R] [WellFoundedLT R] {step : L → S → Option S}
  {good : L → S → Prop} {l : ℕ → L} {x : ℕ → S} {goal : S → Prop} {rank : S → R}
  {helpful : L → S → Prop}

/-- What is to be shown of the steps of a run before the goal is reached. -/
structure Progress (step : L → S → Option S) (good : L → S → Prop) (l : ℕ → L)
    (x : ℕ → S) (goal : S → Prop) (rank : S → R) (helpful : L → S → Prop) : Prop where
  exists_helpful : ∀ i, ¬ goal (x i) → ∃ a, helpful a (x i)
  enabled : ∀ i a, ¬ goal (x i) → helpful a (x i) → Enabled step good a (x i)
  fair : ∀ i a, ¬ goal (x i) → helpful a (x i) → WeaklyFair step good l x a
  taken : ∀ i, ¬ goal (x i) → helpful (l i) (x i) → rank (x (i + 1)) < rank (x i)
  step : ∀ i, ¬ goal (x i) → rank (x (i + 1)) < rank (x i) ∨
    rank (x (i + 1)) = rank (x i) ∧ ∀ a, helpful a (x i) → helpful a (x (i + 1))

omit [WellFoundedLT R] in
/-- As long as the goal is not reached, the rank goes down some time. -/
theorem Progress.exists_lt (h : Progress step good l x goal rank helpful) {i : ℕ}
    (hgoal : ∀ j, i ≤ j → ¬ goal (x j)) : ∃ j, i ≤ j ∧ rank (x (j + 1)) < rank (x i) := by
  by_contra hnone
  have hnone : ∀ j, i ≤ j → ¬ rank (x (j + 1)) < rank (x i) :=
    fun j hj hlt => hnone ⟨j, hj, hlt⟩
  obtain ⟨a, ha⟩ := h.exists_helpful i (hgoal i (Nat.le_refl i))
  -- the rank stays, and with it the label
  have hstay : ∀ j, i ≤ j → rank (x j) = rank (x i) ∧ helpful a (x j) := by
    intro j hj
    refine keep (P := fun j => rank (x j) = rank (x i) ∧ helpful a (x j)) hj ⟨rfl, ha⟩ ?_
    rintro k hk _ ⟨hrank, hhelp⟩
    rcases h.step k (hgoal k hk) with hlt | ⟨heq, hkeep⟩
    · exact absurd (hrank ▸ hlt) (hnone k hk)
    · exact ⟨heq.trans hrank, hkeep a hhelp⟩
  obtain ⟨j, hj, htaken⟩ := h.fair i a (hgoal i (Nat.le_refl i)) ha i fun j hj =>
    h.enabled j a (hgoal j hj) (hstay j hj).2
  have hlt := h.taken j (hgoal j hj) (htaken ▸ (hstay j hj).2)
  exact hnone j hj ((hstay j hj).1 ▸ hlt)

/-- The goal is reached, from every position of the run. -/
theorem Progress.eventually (h : Progress step good l x goal rank helpful) (i : ℕ) :
    ∃ j, i ≤ j ∧ goal (x j) := by
  induction hr : rank (x i) using WellFoundedLT.induction generalizing i with
  | ind r ih =>
      by_contra hnone
      have hgoal : ∀ j, i ≤ j → ¬ goal (x j) := fun j hj hg => hnone ⟨j, hj, hg⟩
      obtain ⟨j, hj, hlt⟩ := h.exists_lt hgoal
      obtain ⟨k, hk, hg⟩ := ih _ (hr ▸ hlt) (j + 1) rfl
      exact hnone ⟨k, hj.trans ((Nat.le_succ j).trans hk), hg⟩

/-- The goal is reached for the first time. -/
theorem Progress.first (h : Progress step good l x goal rank helpful) (i : ℕ) :
    ∃ j, i ≤ j ∧ goal (x j) ∧ ∀ k, i ≤ k → k < j → ¬ goal (x k) := by
  classical
  have hex := h.eventually i
  refine ⟨Nat.find hex, (Nat.find_spec hex).1, (Nat.find_spec hex).2, ?_⟩
  intro k hk hlt hgoal
  exact Nat.find_min hex hlt ⟨hk, hgoal⟩

end Rule

/-! ## Runs that come to rest -/

/-- The labels of a list, and one label for ever after. -/
def thenAlways (ls : List L) (idle : L) (i : ℕ) : L := ls.getD i idle

/-- The states that the labels lead through; one that leads nowhere is passed over. -/
def states (step : L → S → Option S) (l : ℕ → L) (init : S) : ℕ → S
  | 0 => init
  | i + 1 => (step (l i) (states step l init i)).getD (states step l init i)

section Rest

variable {step : L → S → Option S} {good : L → S → Prop} {init y : S} {ls : List L}
  {idle : L}

theorem guarded_eq_some [∀ a x, Decidable (good a x)] {a : L} {x z : S} :
    guarded step good a x = some z ↔ good a x ∧ step a x = some z := by
  unfold guarded
  split <;> simp [*]

theorem states_thenAlways_cons (a : L) {z : S} (ha : step a init = some z) (i : ℕ) :
    states step (thenAlways (a :: ls) idle) init (i + 1) =
      states step (thenAlways ls idle) z i := by
  induction i with
  | zero => simp [states, thenAlways, ha]
  | succ i ih =>
      rw [states, ih, states]
      rfl

/-- After the labels of a run the state is the last one of the run. -/
theorem states_of_run [∀ a x, Decidable (good a x)] (idle : L) (ls' : List L)
    (hrun : run (guarded step good) ls init = some y) :
    states step (thenAlways (ls ++ ls') idle) init ls.length = y := by
  induction ls generalizing init with
  | nil =>
      rw [run, Option.some.injEq] at hrun
      exact hrun
  | cons a ls ih =>
      rw [run] at hrun
      cases ha : guarded step good a init with
      | none => simp [ha] at hrun
      | some z =>
          rw [ha] at hrun
          rw [List.cons_append, List.length_cons,
            states_thenAlways_cons a (guarded_eq_some.mp ha).2]
          exact ih hrun

/-- From a state of rest the idle label leads to states of rest for ever. -/
theorem isRun_of_rest {rest : S → Prop} (hrest : ∀ y, rest y → good idle y ∧
      ∃ z, step idle y = some z ∧ rest z) (hy : rest y) :
    IsRun step good y (thenAlways [] idle) (states step (thenAlways [] idle) y) ∧
      ∀ i, rest (states step (thenAlways [] idle) y i) := by
  have hall : ∀ i, rest (states step (thenAlways [] idle) y i) ∧
      step idle (states step (thenAlways [] idle) y i) =
        some (states step (thenAlways [] idle) y (i + 1)) := by
    intro i
    induction i with
    | zero =>
        obtain ⟨_, z, hz, _⟩ := hrest y hy
        exact ⟨hy, by simp [states, thenAlways, hz]⟩
    | succ i ih =>
        obtain ⟨_, z, hz, hrestz⟩ := hrest _ ih.1
        have hnext : states step (thenAlways [] idle) y (i + 1) = z :=
          Option.some.inj (ih.2.symm.trans hz)
        rw [← hnext] at hrestz
        obtain ⟨_, w, hw, _⟩ := hrest _ hrestz
        have hlast : states step (thenAlways [] idle) y (i + 1 + 1) =
            (step idle (states step (thenAlways [] idle) y (i + 1))).getD
              (states step (thenAlways [] idle) y (i + 1)) := rfl
        exact ⟨hrestz, by rw [hlast, hw, Option.getD_some]⟩
  exact ⟨⟨rfl, fun i => (hall i).2, fun i => (hrest _ (hall i).1).1⟩, fun i => (hall i).1⟩

/-- A run of finitely many steps to a state of rest goes on for ever. -/
theorem isRun_of_run [∀ a x, Decidable (good a x)] (rest : S → Prop)
    (hrest : ∀ y, rest y → good idle y ∧ ∃ z, step idle y = some z ∧ rest z)
    (hrun : run (guarded step good) ls init = some y) (hy : rest y) :
    IsRun step good init (thenAlways ls idle) (states step (thenAlways ls idle) init) ∧
      ∀ i, ls.length ≤ i → rest (states step (thenAlways ls idle) init i) := by
  induction ls generalizing init with
  | nil =>
      rw [run, Option.some.injEq] at hrun
      obtain ⟨hisRun, hall⟩ := isRun_of_rest hrest (hrun.symm ▸ hy)
      exact ⟨hisRun, fun i _ => hall i⟩
  | cons a ls ih =>
      rw [run] at hrun
      cases ha : guarded step good a init with
      | none => simp [ha] at hrun
      | some z =>
          rw [ha] at hrun
          obtain ⟨hgood, hstep⟩ := guarded_eq_some.mp ha
          obtain ⟨hisRun, hall⟩ := ih hrun
          have hcons := @states_thenAlways_cons _ _ step init ls idle a z hstep
          refine ⟨⟨rfl, fun i => ?_, fun i => ?_⟩, fun i hi => ?_⟩
          · cases i with
            | zero =>
                rw [hcons 0]
                exact hstep
            | succ i =>
                rw [hcons, hcons]
                exact hisRun.next i
          · cases i with
            | zero => exact hgood
            | succ i =>
                rw [hcons]
                exact hisRun.good i
          · cases i with
            | zero => cases hi
            | succ i =>
                rw [hcons]
                exact hall i (Nat.le_of_succ_le_succ hi)

/-- It is fair to every label that leads nowhere in the end. -/
theorem weaklyFair_of_none {x : ℕ → S} {l : ℕ → L} {a : L} (k : ℕ)
    (ha : ∀ i, k ≤ i → step a (x i) = none) : WeaklyFair step good l x a := by
  intro i henabled
  have hlast := (henabled (max i k) (Nat.le_max_left i k)).1
  rw [ha _ (Nat.le_max_right i k)] at hlast
  cases hlast

end Rest

end MeDiE.Verified.Fair
