import MeDiE.System.Cases

/-!
# The steps of a measurement (`launch_all.sh`, `protocol_test/synchro.bash`)

In every step the script sends `SIGUSR2` to the servers and then to the manager, waits
for the servers' ack files and removes them.  A handler that needs no rebalancing
creates `vmXUSR-0`, and a listener that has taken over a table and is done with its
transfers creates `vmXUSR-1`; both open the file with `O_EXCL`, so a file that exists
stays.

Every file, and every thread that is to create one, has the step on whose behalf that
is: for a handler the step whose `SIGUSR2` has started it, for a listener the one whose
epoch the manager has asked for before it sent the table.
-/

namespace MeDiE.Launch

open MeDiE.Storage

/-- Where the script is.  The servers in `left` are still to be signalled. -/
inductive Point (nb : Nat)
  | signal (left : List (Fin nb))
  | signalManager
  | wait (i : Nat)
  | search
  | wait1 (i : Nat)
  | remove
  deriving DecidableEq

/-- The system, the files in `tmp_ack` and the script.  `tags` has the step of every
handler that is under way; `creating` and `acking` are the handlers and the listeners
that are about to create their file. -/
structure State (n nb : Nat) (A C : Type) where
  sys : System.State n nb A C
  tags : Fin nb → List Nat
  creating : Fin nb → List Nat
  acking : Fin nb → Option Nat
  ack0 : Fin nb → Option Nat
  ack1 : Fin nb → Option Nat
  step : Nat
  point : Point nb

/-- Who moves. -/
inductive Label (nb : Nat) (C : Type)
  | sys (l : System.Label nb C)
  | kill (s : Fin nb)
  | createAck0 (s : Fin nb) (i : Nat)
  | createAck1 (s : Fin nb)
  | script

variable {n nb : Nat} {A C : Type} [Eacl A n]

def init (n nb : Nat) [NeZero nb] (A C : Type) [Eacl A n] : State n nb A C where
  sys := System.init n nb A C
  tags _ := []
  creating _ := []
  acking _ := none
  ack0 _ := none
  ack1 _ := none
  step := 1
  point := .signal (List.finRange nb)

/-- The epoch the manager has asked for before the table that server `s` is done with:
it sends one table after each `ASK`. -/
def stepOf (x : System.State n nb A C) (s : Fin nb) : Nat :=
  x.log.asks.getD ((x.srv s).plans.length - 1) 0

/-- Signals come from the script, and a listener creates its file before it goes on. -/
def allowed (b : State n nb A C) : System.Label nb C → Bool
  | .usrHandler2 => false
  | .server _ .usr2 => false
  | .server s .listener => (b.acking s).isNone
  | _ => true

/-- A handler has compared the load with the thresholds. -/
def afterHandler (b : State n nb A C) (s : Fin nb) (i max min : Nat)
    (y : System.State n nb A C) : State n nb A C :=
  let loadLvl := Eacl.readLoadLvl (b.sys.srv s).accessList
  let tags := Function.update b.tags s ((b.tags s).eraseIdx i)
  if loadLvl ≤ max ∧ min ≤ loadLvl then
    { b with
      sys := y
      tags := tags
      creating := Function.update b.creating s (b.creating s ++ [(b.tags s).getD i 0]) }
  else
    { b with
      sys := y
      tags := tags }

/-- The system has made a step. -/
def afterStep (b : State n nb A C) (l : System.Label nb C) (y : System.State n nb A C) :
    State n nb A C :=
  match l with
  | .server s (.handler i) =>
      match (b.sys.srv s).handlers[i]? with
      | some (.askRebalancing max min) => afterHandler b s i max min y
      | _ => { b with sys := y }
  | .server s .listener =>
      match (b.sys.srv s).listener with
      | .transfer _ _ =>
          { b with
            sys := y
            acking := Function.update b.acking s (some (stepOf y s)) }
      | _ => { b with sys := y }
  | _ => { b with sys := y }

section Step

variable [DecidableEq C]

/-- The next command of the script. -/
def scriptStep (hash : Key → Fin n) (b : State n nb A C) : Option (State n nb A C) :=
  match b.point with
  | .signal [] => some { b with point := .signalManager }
  | .signal (_ :: _) => none
  | .signalManager =>
      (System.step hash .usrHandler2 b.sys).map fun y =>
        { b with
          sys := y
          point := .wait 0 }
  | .wait i =>
      if h : i < nb then
        if (b.ack0 ⟨i, h⟩).isSome ∨ (b.ack1 ⟨i, h⟩).isSome then
          some { b with point := .wait (i + 1) }
        else none
      else some { b with point := .search }
  | .search =>
      if ∃ s, (b.ack1 s).isSome then some { b with point := .wait1 0 }
      else some { b with point := .remove }
  | .wait1 i =>
      if h : i < nb then
        if (b.ack1 ⟨i, h⟩).isSome then some { b with point := .wait1 (i + 1) } else none
      else some { b with point := .remove }
  | .remove =>
      some { b with
        ack0 := fun _ => none
        ack1 := fun _ => none
        step := b.step + 1
        point := .signal (List.finRange nb) }

def step (hash : Key → Fin n) (l : Label nb C) (b : State n nb A C) :
    Option (State n nb A C) :=
  match l with
  | .sys l =>
      if allowed b l = true then (System.step hash l b.sys).map (afterStep b l) else none
  | .kill s =>
      match b.point with
      | .signal left =>
          if left.contains s then
            (System.step hash (.server s .usr2) b.sys).map fun y =>
              { b with
                sys := y
                tags := Function.update b.tags s (b.tags s ++ [b.step])
                point := .signal (left.erase s) }
          else none
      | _ => none
  | .createAck0 s i =>
      match (b.creating s)[i]? with
      | none => none
      | some k =>
          if (b.sys.srv s).main.alive = true then
            some { b with
              creating := Function.update b.creating s ((b.creating s).eraseIdx i)
              ack0 := Function.update b.ack0 s ((b.ack0 s).or (some k)) }
          else none
  | .createAck1 s =>
      match b.acking s with
      | none => none
      | some k =>
          if (b.sys.srv s).main.alive = true then
            some { b with
              acking := Function.update b.acking s none
              ack1 := Function.update b.ack1 s ((b.ack1 s).or (some k)) }
          else none
  | .script => scriptStep hash b

/-! ## The cases of a step -/

inductive Step (hash : Key → Fin n) (b : State n nb A C) : Label nb C → State n nb A C → Prop
  | sys (l : System.Label nb C) (y : System.State n nb A C) (hallowed : allowed b l = true)
      (h : System.Step hash b.sys l y) : Step hash b (.sys l) (afterStep b l y)
  | kill (s : Fin nb) (left : List (Fin nb)) (hp : b.point = .signal left) (hs : s ∈ left) :
      Step hash b (.kill s)
        { b with
          sys := b.sys.setSrv s (Server.usr2Handler (b.sys.srv s))
          tags := Function.update b.tags s (b.tags s ++ [b.step])
          point := .signal (left.erase s) }
  | createAck0 (s : Fin nb) (i k : Nat) (hi : (b.creating s)[i]? = some k) :
      Step hash b (.createAck0 s i)
        { b with
          creating := Function.update b.creating s ((b.creating s).eraseIdx i)
          ack0 := Function.update b.ack0 s ((b.ack0 s).or (some k)) }
  | createAck1 (s : Fin nb) (k : Nat) (hk : b.acking s = some k) :
      Step hash b (.createAck1 s)
        { b with
          acking := Function.update b.acking s none
          ack1 := Function.update b.ack1 s ((b.ack1 s).or (some k)) }
  | signalled (hp : b.point = .signal []) :
      Step hash b .script { b with point := .signalManager }
  | signalManager (hp : b.point = .signalManager) :
      Step hash b .script
        { b with
          sys := b.sys.setMgr (Manager.usrHandler2 b.sys.mgr)
          point := .wait 0 }
  | found (i : Nat) (hi : i < nb) (hp : b.point = .wait i)
      (hack : b.ack0 ⟨i, hi⟩ ≠ none ∨ b.ack1 ⟨i, hi⟩ ≠ none) :
      Step hash b .script { b with point := .wait (i + 1) }
  | foundAll (i : Nat) (hi : nb ≤ i) (hp : b.point = .wait i) :
      Step hash b .script { b with point := .search }
  | searchFound (hp : b.point = .search) :
      Step hash b .script { b with point := .wait1 0 }
  | searchNone (hp : b.point = .search) (hnone : ∀ s, b.ack1 s = none) :
      Step hash b .script { b with point := .remove }
  | found1 (i : Nat) (hi : i < nb) (hp : b.point = .wait1 i) (hack : b.ack1 ⟨i, hi⟩ ≠ none) :
      Step hash b .script { b with point := .wait1 (i + 1) }
  | found1All (i : Nat) (hi : nb ≤ i) (hp : b.point = .wait1 i) :
      Step hash b .script { b with point := .remove }
  | remove (hp : b.point = .remove) :
      Step hash b .script
        { b with
          ack0 := fun _ => none
          ack1 := fun _ => none
          step := b.step + 1
          point := .signal (List.finRange nb) }

private theorem step_of_script {hash : Key → Fin n} {b b' : State n nb A C}
    (h : scriptStep hash b = some b') : Step hash b .script b' := by
  unfold scriptStep at h
  split at h
  · cases h
    exact Step.signalled ‹_›
  · cases h
  · cases h
    exact Step.signalManager ‹_›
  · rename_i i hp
    split at h
    · rename_i hi
      split at h
      · rename_i hack
        cases h
        refine Step.found i hi hp ?_
        rwa [Option.isSome_iff_ne_none, Option.isSome_iff_ne_none] at hack
      · cases h
    · cases h
      exact Step.foundAll i (Nat.le_of_not_lt ‹_›) hp
  · rename_i hp
    split at h
    · cases h
      exact Step.searchFound hp
    · rename_i hnone
      cases h
      refine Step.searchNone hp fun s => ?_
      by_contra hne
      exact hnone ⟨s, Option.isSome_iff_ne_none.mpr hne⟩
  · rename_i i hp
    split at h
    · rename_i hi
      split at h
      · cases h
        exact Step.found1 i hi hp (Option.isSome_iff_ne_none.mp ‹_›)
      · cases h
    · cases h
      exact Step.found1All i (Nat.le_of_not_lt ‹_›) hp
  · cases h
    exact Step.remove ‹_›

/-- `Step` covers every step. -/
theorem step_cases {hash : Key → Fin n} {l : Label nb C} {b b' : State n nb A C}
    (h : step hash l b = some b') : Step hash b l b' := by
  cases l with
  | sys l =>
      rw [step] at h
      split at h
      · obtain ⟨y, hy, heq⟩ := Option.map_eq_some_iff.mp h
        rw [← heq]
        exact Step.sys l y ‹_› (System.step_cases hy)
      · cases h
  | kill s =>
      rw [step] at h
      split at h
      · split at h
        · cases h
          exact Step.kill s _ ‹_› (List.contains_iff_mem.mp ‹_›)
        · cases h
      · cases h
  | createAck0 s i =>
      rw [step] at h
      split at h
      · cases h
      · obtain ⟨_, h⟩ := Option.ite_none_right_eq_some.mp h
        cases h
        exact Step.createAck0 s i _ ‹_›
  | createAck1 s =>
      rw [step] at h
      split at h
      · cases h
      · obtain ⟨_, h⟩ := Option.ite_none_right_eq_some.mp h
        cases h
        exact Step.createAck1 s _ ‹_›
  | script => exact step_of_script h

end Step

end MeDiE.Launch
