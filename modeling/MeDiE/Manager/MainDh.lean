import MeDiE.Manager.Main
import MeDiE.Manager.RelabDh

/-!
# `main` of `manager_dh.c`

This manager asks for nothing.  `usrHandler2` sets a flag; the main loop polls it,
then receives as many access lists as there are servers, computes a new table and
sends it out.  A message holds the list alone: neither the server it is from nor
the round it is for.  The handler of `SIGUSR2` is installed without `SA_RESTART`, so
that a signal may end a receive that is waiting.
-/

namespace MeDiE.ManagerDh

open MeDiE.Table

/-- Points of the main loop. -/
inductive Point
  | poll
  | collect (nbRcv : Nat)
  | relabelling
  | sendMlt
  | clear
  deriving DecidableEq

/-- The static variables of the manager and where it is. -/
structure State (n nb : Nat) where
  table : Mlt n (Fin nb)
  globalList : Fin n → Nat
  updateNeeded : Bool
  point : Point

variable {n nb : Nat}

/-- `manager_init`. -/
def State.init (n nb : Nat) [NeZero nb] : State n nb where
  table := mltInit n nb
  globalList _ := 0
  updateNeeded := false
  point := .poll

/-- `usrHandler2`. -/
def usrHandler2 (mgr : State n nb) : State n nb :=
  { mgr with updateNeeded := true }

/-- `manager_merge_eacl`, the same function as in `manager_v2_indedh.c`. -/
def managerMergeEacl (globalList newList : Fin n → Nat) : Fin n → Nat :=
  Manager.managerMergeEacl globalList newList

/-- A message has been received with `zmsg_recv(pull)`: the branch in which `packet`
is not `NULL`. -/
def recvStep (mgr : State n nb) (tempSai : Fin n → Nat) : Option (State n nb) :=
  match mgr.point with
  | .collect nbRcv =>
      if nbRcv < nb then
        some { mgr with
          globalList := managerMergeEacl mgr.globalList tempSai
          point := .collect (nbRcv + 1) }
      else none
  | _ => none

/-- A `SIGUSR2` has ended `zmsg_recv(pull)`, which returns `NULL`.  Its handler has
set the flag; the loop complains and counts the message all the same. -/
def recvNull (mgr : State n nb) : Option (State n nb) :=
  match mgr.point with
  | .collect nbRcv =>
      if nbRcv < nb then some { usrHandler2 mgr with point := .collect (nbRcv + 1) }
      else none
  | _ => none

/-- The step at a point where nothing is received. -/
def localStep (mgr : State n nb) : Option (State n nb) :=
  match mgr.point with
  | .poll => if mgr.updateNeeded = true then some { mgr with point := .collect 0 } else none
  | .collect nbRcv => if nbRcv < nb then none else some { mgr with point := .relabelling }
  | .relabelling =>
      some { mgr with
        table := managerCalculateRelabTable mgr.table mgr.globalList
        point := .sendMlt }
  | .sendMlt => some { mgr with point := .clear }
  | .clear =>
      some { mgr with
        updateNeeded := false
        point := .poll }

/-- The cases of `localStep`. -/
inductive LocalStep (mgr : State n nb) : State n nb → Prop
  | poll (hp : mgr.point = .poll) (hneeded : mgr.updateNeeded = true) :
      LocalStep mgr { mgr with point := .collect 0 }
  | collected (nbRcv : Nat) (hp : mgr.point = .collect nbRcv) (hrcv : nb ≤ nbRcv) :
      LocalStep mgr { mgr with point := .relabelling }
  | relabelling (hp : mgr.point = .relabelling) :
      LocalStep mgr { mgr with
        table := managerCalculateRelabTable mgr.table mgr.globalList
        point := .sendMlt }
  | sendMlt (hp : mgr.point = .sendMlt) : LocalStep mgr { mgr with point := .clear }
  | clear (hp : mgr.point = .clear) :
      LocalStep mgr { mgr with
        updateNeeded := false
        point := .poll }

theorem localStep_cases {mgr mgr' : State n nb} (h : localStep mgr = some mgr') :
    LocalStep mgr mgr' := by
  unfold localStep at h
  split at h
  · split at h
    · cases h
      exact LocalStep.poll ‹_› ‹_›
    · cases h
  · split at h
    · cases h
    · cases h
      exact LocalStep.collected _ ‹_› (Nat.le_of_not_lt ‹_›)
  · cases h
    exact LocalStep.relabelling ‹_›
  · cases h
    exact LocalStep.sendMlt ‹_›
  · cases h
    exact LocalStep.clear ‹_›

/-- The one case of `recvStep`. -/
theorem recvStep_cases {mgr mgr' : State n nb} {tempSai : Fin n → Nat}
    (h : recvStep mgr tempSai = some mgr') :
    ∃ nbRcv, mgr.point = .collect nbRcv ∧ nbRcv < nb ∧
      mgr' = { mgr with
        globalList := managerMergeEacl mgr.globalList tempSai
        point := .collect (nbRcv + 1) } := by
  unfold recvStep at h
  split at h
  · split at h
    · cases h
      exact ⟨_, ‹_›, ‹_›, rfl⟩
    · cases h
  · cases h

/-- The one case of `recvNull`. -/
theorem recvNull_cases {mgr mgr' : State n nb} (h : recvNull mgr = some mgr') :
    ∃ nbRcv, mgr.point = .collect nbRcv ∧ nbRcv < nb ∧
      mgr' = { usrHandler2 mgr with point := .collect (nbRcv + 1) } := by
  unfold recvNull at h
  split at h
  · split at h
    · cases h
      exact ⟨_, ‹_›, ‹_›, rfl⟩
    · cases h
  · cases h

end MeDiE.ManagerDh
