import Mathlib.Tactic

/-!
# Runs of a transition system

A labelled system is a partial function from a label and a state to the next
state.  `Reach` is the set of states of its runs; with `StepsIf` these are the runs
all of whose steps meet a condition on the state before the step.
Invariants are proved once for a step and then hold along every run, and a
simulation carries invariants of an abstract system over to a concrete one.
-/

namespace MeDiE.Verified.Transition

variable {S T L : Type}

/-- The states of all runs from `init`. -/
inductive Reach (init : S) (step : S → S → Prop) : S → Prop
  | start : Reach init step init
  | next {x y : S} : Reach init step x → step x y → Reach init step y

/-- What holds initially and is kept by every step of a run holds along runs. -/
theorem Reach.invariant {init : S} {step : S → S → Prop} {I : S → Prop}
    (hinit : I init) (hstep : ∀ x y, Reach init step x → I x → step x y → I y)
    {x : S} (h : Reach init step x) : I x := by
  induction h with
  | start => exact hinit
  | next hx hxy ih => exact hstep _ _ hx ih hxy

theorem Reach.mono {init : S} {step step' : S → S → Prop}
    (hsub : ∀ x y, step x y → step' x y) {x : S} (h : Reach init step x) :
    Reach init step' x := by
  induction h with
  | start => exact Reach.start
  | next _ hxy ih => exact Reach.next ih (hsub _ _ hxy)

theorem Reach.reflTransGen {init : S} {step : S → S → Prop} {x : S} (h : Reach init step x) :
    Relation.ReflTransGen step init x := by
  induction h with
  | start => exact Relation.ReflTransGen.refl
  | next _ hxy ih => exact ih.tail hxy

theorem Reach.trans {init : S} {step : S → S → Prop} {x y : S} (hx : Reach init step x)
    (hxy : Relation.ReflTransGen step x y) : Reach init step y := by
  induction hxy with
  | refl => exact hx
  | tail _ hyz ih => exact ih.next hyz

/-- A system that can go on in one way only passes through all its states on the way to
the one where it ends. -/
theorem Reach.to_end {init : S} {step : S → S → Prop} (hdet : Relator.RightUnique step)
    {x z : S} (hx : Reach init step x) (hz : Reach init step z) (hend : ∀ y, ¬ step z y) :
    Relation.ReflTransGen step x z := by
  rcases Relation.ReflTransGen.total_of_right_unique hdet hx.reflTransGen hz.reflTransGen with
    hxz | hzx
  · exact hxz
  · rcases hzx.cases_head with heq | ⟨y, hzy, _⟩
    · exact heq ▸ Relation.ReflTransGen.refl
    · exact absurd hzy (hend y)

/-- A map that takes steps of runs to steps, or to nothing, takes runs to runs. -/
theorem Reach.simulation {init : S} {step : S → S → Prop} {step' : T → T → Prop}
    (f : S → T)
    (hstep : ∀ x y, Reach init step x → step x y → f y = f x ∨ step' (f x) (f y))
    {x : S} (h : Reach init step x) : Reach (f init) step' (f x) := by
  induction h with
  | start => exact Reach.start
  | next hx hxy ih =>
      rcases hstep _ _ hx hxy with heq | hnext
      · rw [heq]
        exact ih
      · exact Reach.next ih hnext

/-- A relation under which every step of a run is matched by a step, or by nothing,
relates every state of a run to a state of a run. -/
theorem Reach.related {init : S} {step : S → S → Prop} {init' : T} {step' : T → T → Prop}
    (R : S → T → Prop) (hinit : R init init')
    (hstep : ∀ x y t, Reach init step x → Reach init' step' t → R x t → step x y →
      ∃ t', (t' = t ∨ step' t t') ∧ R y t')
    {x : S} (h : Reach init step x) : ∃ t, Reach init' step' t ∧ R x t := by
  induction h with
  | start => exact ⟨init', Reach.start, hinit⟩
  | next hx hxy ih =>
      obtain ⟨t, ht, hR⟩ := ih
      obtain ⟨t', ht', hR'⟩ := hstep _ _ t hx ht hR hxy
      rcases ht' with heq | hnext
      · exact ⟨t, ht, heq ▸ hR'⟩
      · exact ⟨t', ht.next hnext, hR'⟩

/-- Some label leads from `x` to `y`. -/
def Steps (step : L → S → Option S) (x y : S) : Prop := ∃ l, step l x = some y

/-- Some label whose condition holds in `x` leads from `x` to `y`. -/
def StepsIf (step : L → S → Option S) (good : L → S → Prop) (x y : S) : Prop :=
  ∃ l, good l x ∧ step l x = some y

theorem StepsIf.steps {step : L → S → Option S} {good : L → S → Prop} {x y : S}
    (h : StepsIf step good x y) : Steps step x y := by
  obtain ⟨l, _, hl⟩ := h
  exact ⟨l, hl⟩

/-- `step` where the condition holds, and nowhere else. -/
def guarded (step : L → S → Option S) (good : L → S → Prop)
    [∀ l x, Decidable (good l x)] (l : L) (x : S) : Option S :=
  if good l x then step l x else none

theorem stepsIf_of_guarded {step : L → S → Option S} {good : L → S → Prop}
    [∀ l x, Decidable (good l x)] {x y : S} (h : Steps (guarded step good) x y) :
    StepsIf step good x y := by
  obtain ⟨l, hl⟩ := h
  unfold guarded at hl
  split at hl
  · exact ⟨l, ‹_›, hl⟩
  · cases hl

/-- `step` with a history beside the state; `record` gets the states before and after. -/
def withHistory {H : Type} (step : L → S → Option S) (record : L → S → S → H → H) (l : L)
    (x : S × H) : Option (S × H) :=
  (step l x.1).map fun y => (y, record l x.1 y x.2)

theorem withHistory_eq_some {H : Type} {step : L → S → Option S}
    {record : L → S → S → H → H} {l : L} {x y : S × H} :
    withHistory step record l x = some y ↔
      step l x.1 = some y.1 ∧ y.2 = record l x.1 y.1 x.2 := by
  obtain ⟨y, h⟩ := y
  rw [withHistory, Option.map_eq_some_iff]
  constructor
  · rintro ⟨z, hz, heq⟩
    cases heq
    exact ⟨hz, rfl⟩
  · rintro ⟨hy, heq⟩
    exact ⟨y, hy, congrArg (Prod.mk y) heq.symm⟩

/-- `p` holds in all states of the one run of `step` from `x`, which ends within `fuel`
steps. -/
def holdsAlong (step : S → Option S) (p : S → Prop) [DecidablePred p] : Nat → S → Bool
  | 0, _ => false
  | fuel + 1, x =>
      decide (p x) &&
        match step x with
        | none => true
        | some y => holdsAlong step p fuel y

theorem reach_of_holdsAlong {step : S → Option S} {p : S → Prop} [DecidablePred p]
    (fuel : Nat) {init : S} (h : holdsAlong step p fuel init = true) {x : S}
    (hx : Reach init (Steps fun (_ : Unit) => step) x) : p x := by
  have hrest : ∃ fuel, holdsAlong step p fuel x = true := by
    induction hx with
    | start => exact ⟨fuel, h⟩
    | next _ hxy ih =>
        obtain ⟨_, hstep⟩ := hxy
        obtain ⟨fuel, hfuel⟩ := ih
        cases fuel with
        | zero => simp [holdsAlong] at hfuel
        | succ fuel =>
            rw [holdsAlong, show step _ = some _ from hstep, Bool.and_eq_true] at hfuel
            exact ⟨fuel, hfuel.2⟩
  obtain ⟨fuel, hfuel⟩ := hrest
  cases fuel with
  | zero => simp [holdsAlong] at hfuel
  | succ fuel =>
      rw [holdsAlong, Bool.and_eq_true, decide_eq_true_eq] at hfuel
      exact hfuel.1

/-- Run a list of labels. -/
def run (step : L → S → Option S) : List L → S → Option S
  | [], x => some x
  | l :: ls, x =>
      match step l x with
      | some y => run step ls y
      | none => none

/-- A run that can be executed is a run. -/
theorem reach_of_run {step : L → S → Option S} {init : S} (ls : List L) {x y : S}
    (hx : Reach init (Steps step) x) (h : run step ls x = some y) :
    Reach init (Steps step) y := by
  induction ls generalizing x with
  | nil =>
      rw [run, Option.some.injEq] at h
      exact h ▸ hx
  | cons l ls ih =>
      rw [run] at h
      cases hl : step l x with
      | none => simp [hl] at h
      | some z =>
          rw [hl] at h
          exact ih (hx.next ⟨l, hl⟩) h

/-- A run that can be executed and whose steps meet the condition. -/
theorem reach_of_guarded_run {step : L → S → Option S} {good : L → S → Prop}
    [∀ l x, Decidable (good l x)] {init : S} (ls : List L) {y : S}
    (h : run (guarded step good) ls init = some y) :
    Reach init (StepsIf step good) y :=
  (reach_of_run ls Reach.start h).mono fun _ _ => stepsIf_of_guarded

end MeDiE.Verified.Transition
