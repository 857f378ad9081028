import MeDiE.Manager.Relab
import MeDiE.Protocol

/-!
# `main` of `manager_v2_indedh.c` and `manager_windowed.c`

The two files hold the same loop.  The manager waits for a `HELP` of the current
epoch, asks every server for its access list, counts as many answers as there are
servers, computes a new table and sends it out.  `usrHandler2` may run between
any two steps.
-/

namespace MeDiE.Manager

open MeDiE.Table
open MeDiE.Verified.Word32

/-- Points of the main loop. -/
inductive Point
  | recv
  | checkEpoch (rcvHelpEpoch : Nat)
  | waitEpoch (rcvHelpEpoch : Nat)
  | checkProcessed (rcvHelpEpoch : Nat)
  | newAsk
  | sendAsk (epoch : Nat)
  | collect (nbRcv : Nat)
  | relabelling
  | sendMlt
  | setProcessed
  deriving DecidableEq

/-- The static variables of the manager and where it is. -/
structure State (n nb : Nat) where
  table : Mlt n (Fin nb)
  globalList : Fin n → Nat
  allList : Fin nb → Nat
  meanLoad : Nat
  epoch : Nat
  epochProcessed : Bool
  point : Point

variable {n nb : Nat}

/-- `manager_init`. -/
def State.init (n nb : Nat) [NeZero nb] : State n nb where
  table := mltInit n nb
  globalList _ := 0
  allList _ := 0
  meanLoad := 0
  epoch := 0
  epochProcessed := false
  point := .recv

/-- `usrHandler2`. -/
def usrHandler2 (mgr : State n nb) : State n nb :=
  { mgr with
    epoch := mgr.epoch + 1
    epochProcessed := false }

/-- `manager_merge_eacl`. -/
def managerMergeEacl (globalList newList : Fin n → Nat) (i : Fin n) : Nat :=
  if newList i ≠ 0 then newList i else globalList i

/-- A message has been received with `zmsg_recv(pull)`. -/
def recvStep (mgr : State n nb) (packet : ToManager n nb) : Option (State n nb) :=
  match mgr.point with
  | .recv =>
      match packet with
      | .eacl _ _ _ => some mgr
      | .help rcvHelpEpoch => some { mgr with point := .checkEpoch rcvHelpEpoch }
  | .collect nbRcv =>
      if nbRcv < nb then
        match packet with
        | .help _ => some mgr
        | .eacl rcvId rcvSai rcvLoad =>
            some { mgr with
              globalList := managerMergeEacl mgr.globalList rcvSai
              allList := Function.update mgr.allList rcvId rcvLoad
              point := .collect (nbRcv + 1) }
      else none
  | _ => none

/-- The step at a point where nothing is sent or received. -/
def localStep (mgr : State n nb) : Option (State n nb) :=
  match mgr.point with
  | .checkEpoch rcvHelpEpoch =>
      if rcvHelpEpoch < mgr.epoch then some { mgr with point := .recv }
      else some { mgr with point := .waitEpoch rcvHelpEpoch }
  | .waitEpoch rcvHelpEpoch =>
      if mgr.epoch < rcvHelpEpoch then none
      else some { mgr with point := .checkProcessed rcvHelpEpoch }
  | .checkProcessed _ =>
      if mgr.epochProcessed = true then some { mgr with point := .recv }
      else some { mgr with point := .newAsk }
  | .newAsk => some { mgr with point := .sendAsk mgr.epoch }
  | .collect nbRcv =>
      if nbRcv < nb then none else some { mgr with point := .relabelling }
  | .relabelling =>
      some { mgr with
        table := managerCalculateRelabTable mgr.table mgr.globalList mgr.allList
        meanLoad := (toUInt32 (meanLoad mgr.allList)).toNat
        point := .sendMlt }
  | .setProcessed =>
      some { mgr with
        epochProcessed := true
        point := .recv }
  | .recv => none
  | .sendAsk _ => none
  | .sendMlt => none

/-- `zmsg_send(pub)`: the packet for all servers and the manager after it. -/
def sendStep (mgr : State n nb) : Option (State n nb × FromManager n nb) :=
  match mgr.point with
  | .sendAsk epoch => some ({ mgr with point := .collect 0 }, .ask epoch)
  | .sendMlt =>
      some ({ mgr with point := .setProcessed },
        .mlt
          { idSrv := mgr.table.idSrv
            nVer := mgr.table.nVer
            meanLoad := mgr.meanLoad })
  | _ => none

/-- The cases of `localStep`. -/
inductive LocalStep (mgr : State n nb) : State n nb → Prop
  | oldHelp (h : Nat) (hp : mgr.point = .checkEpoch h) (hepoch : h < mgr.epoch) :
      LocalStep mgr { mgr with point := .recv }
  | newHelp (h : Nat) (hp : mgr.point = .checkEpoch h) (hepoch : mgr.epoch ≤ h) :
      LocalStep mgr { mgr with point := .waitEpoch h }
  | epochReached (h : Nat) (hp : mgr.point = .waitEpoch h) (hepoch : h ≤ mgr.epoch) :
      LocalStep mgr { mgr with point := .checkProcessed h }
  | processed (h : Nat) (hp : mgr.point = .checkProcessed h)
      (hprocessed : mgr.epochProcessed = true) :
      LocalStep mgr { mgr with point := .recv }
  | notProcessed (h : Nat) (hp : mgr.point = .checkProcessed h)
      (hprocessed : mgr.epochProcessed = false) :
      LocalStep mgr { mgr with point := .newAsk }
  | newAsk (hp : mgr.point = .newAsk) :
      LocalStep mgr { mgr with point := .sendAsk mgr.epoch }
  | collected (nbRcv : Nat) (hp : mgr.point = .collect nbRcv) (hall : nb ≤ nbRcv) :
      LocalStep mgr { mgr with point := .relabelling }
  | relabelling (hp : mgr.point = .relabelling) :
      LocalStep mgr
        { mgr with
          table := managerCalculateRelabTable mgr.table mgr.globalList mgr.allList
          meanLoad := (toUInt32 (meanLoad mgr.allList)).toNat
          point := .sendMlt }
  | setProcessed (hp : mgr.point = .setProcessed) :
      LocalStep mgr
        { mgr with
          epochProcessed := true
          point := .recv }

theorem localStep_cases {mgr mgr' : State n nb} (h : localStep mgr = some mgr') :
    LocalStep mgr mgr' := by
  unfold localStep at h
  split at h
  · split at h
    · cases h
      exact LocalStep.oldHelp _ ‹_› ‹_›
    · cases h
      exact LocalStep.newHelp _ ‹_› (Nat.le_of_not_lt ‹_›)
  · split at h
    · cases h
    · cases h
      exact LocalStep.epochReached _ ‹_› (Nat.le_of_not_lt ‹_›)
  · split at h
    · cases h
      exact LocalStep.processed _ ‹_› ‹_›
    · rename_i hprocessed
      cases h
      exact LocalStep.notProcessed _ ‹_› (Bool.not_eq_true _ ▸ hprocessed)
  · cases h
    exact LocalStep.newAsk ‹_›
  · split at h
    · cases h
    · cases h
      exact LocalStep.collected _ ‹_› (Nat.le_of_not_lt ‹_›)
  · cases h
    exact LocalStep.relabelling ‹_›
  · cases h
    exact LocalStep.setProcessed ‹_›
  · cases h
  · cases h
  · cases h

end MeDiE.Manager
