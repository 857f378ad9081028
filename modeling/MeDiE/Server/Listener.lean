import MeDiE.Server.Transfer

/-!
# `thread_manager_listener` and the handler of `SIGUSR2`

An MLT is taken over row by row.  A row is compared by version; where it differs
and the server is the old or the new owner, the row is marked and put on the list
of entries to send or to receive.
-/

namespace MeDiE.Server

open MeDiE.Table

variable {n nb : Nat} {A C : Type} [Eacl A n]

/-- One round of the loop over the rows of `temp_mlt`. -/
def updateRow (idSrvSelf : Fin nb) (tempMlt : MltPacket n nb) (i : Fin n)
    (table : Mlt n (Fin nb)) (plan : Plan n nb) : Mlt n (Fin nb) × Plan n nb :=
  if table.nVer i ≠ tempMlt.nVer i then
    if table.idSrv i = idSrvSelf then
      (table.updateEntry i (tempMlt.idSrv i) (tempMlt.nVer i) true,
        { plan with toSend := plan.toSend ++ [(tempMlt.idSrv i, i)] })
    else if tempMlt.idSrv i = idSrvSelf then
      (table.updateEntry i (tempMlt.idSrv i) (tempMlt.nVer i) true,
        { plan with toReceive := plan.toReceive ++ [(table.idSrv i, i)] })
    else (table.updateEntry i (tempMlt.idSrv i) (tempMlt.nVer i) false, plan)
  else (table, plan)

/-- `thread_manager_listener`. -/
def listenerStep (idSrvSelf : Fin nb) (srv : State n nb A C) : Option (State n nb A C) :=
  match srv.listener with
  | .recv =>
      match srv.sub with
      | [] => none
      | .ask epochNeeded :: sub =>
          some { srv with
            sub := sub
            listener := .checkEpoch epochNeeded }
      | .mlt tempMlt :: sub =>
          some { srv with
            sub := sub
            meanLoad := tempMlt.meanLoad
            listener := .updateMlt tempMlt 0 ⟨[], []⟩ }
  | .checkEpoch epochNeeded =>
      if epochNeeded < srv.eaclEpoch then some { srv with listener := .recv }
      else some { srv with listener := .waitEpoch epochNeeded }
  | .waitEpoch epochNeeded =>
      if srv.eaclEpoch < epochNeeded then none
      else some { srv with listener := .readSai }
  | .readSai => some { srv with listener := .sendEacl (Eacl.sai srv.accessList) }
  | .sendEacl sai =>
      some { srv with
        push := srv.push ++ [.eacl idSrvSelf sai (Eacl.readLoadLvl srv.accessList)]
        listener := .recv }
  | .updateMlt tempMlt i plan =>
      if h : i < n then
        let row := updateRow idSrvSelf tempMlt ⟨i, h⟩ srv.table plan
        some { srv with
          table := row.1
          listener := .updateMlt tempMlt (i + 1) row.2 }
      else
        match sortToSend plan.toSend with
        | none => none
        | some toSend =>
            some { srv with
              listener := .transfer (.next toSend) (.recv plan.toReceive.length)
              plans := srv.plans ++ [plan] }
  | .transfer sender receiver =>
      -- both `pthread_join`
      if sender.exited && receiver.exited then some { srv with listener := .recv }
      else none

/-- `PERCENT`. -/
def percent : Nat := 10

/-- `mean_load + ((PERCENT * mean_load) / 100)`, in `uint32_t`. -/
def thresholdMax (meanLoad : Nat) : Nat :=
  (meanLoad + percent * meanLoad % 2 ^ 32 / 100) % 2 ^ 32

/-- `mean_load - ((PERCENT * mean_load) / 100)`, in `uint32_t`. -/
def thresholdMin (meanLoad : Nat) : Nat :=
  (meanLoad + 2 ^ 32 - percent * meanLoad % 2 ^ 32 / 100) % 2 ^ 32

/-- `SIGUSR2` is delivered: a handler starts, with `epoch++`. -/
def usr2Handler (srv : State n nb A C) : State n nb A C :=
  { srv with
    epoch := srv.epoch + 1
    handlers := srv.handlers ++ [.calculateSai] }

/-- The next step of a handler in `eacl_calculate_sai`.  No lock is taken, so other
threads may change the list between any two of them. -/
def calculateStep (accessList : A) : Handler n → Option (A × Handler n)
  | .calculateSai => some (Eacl.clearLoad accessList, .loadSai 0)
  | .loadSai i =>
      if h : i < n then some (accessList, .loadCount ⟨i, h⟩ (Eacl.oldIndex accessList ⟨i, h⟩))
      else some (accessList, .setEaclEpoch)
  | .loadCount i old =>
      some (accessList, .storeSai i ((old + Eacl.accessCount accessList i) / 2))
  | .storeSai i value => some (Eacl.setSai accessList i value, .addLoad i)
  | .addLoad i => some (Eacl.addLoad accessList i, .loadSai (i + 1))
  | _ => none

/-- The next step of the handler with number `i`. -/
def handlerStep (srv : State n nb A C) (i : Nat) : Option (State n nb A C) :=
  match srv.handlers[i]? with
  | none => none
  | some .setEaclEpoch =>
      some { srv with
        eaclEpoch := srv.epoch
        handlers := srv.handlers.set i .resetAccess }
  | some .resetAccess =>
      some { srv with
        accessList := Eacl.resetAccess srv.accessList
        handlers := srv.handlers.set i .threshold }
  | some .threshold =>
      some { srv with
        handlers := srv.handlers.set i
          (.askRebalancing (thresholdMax srv.meanLoad) (thresholdMin srv.meanLoad)) }
  | some (.askRebalancing max min) =>
      let loadLvl := Eacl.readLoadLvl srv.accessList
      if loadLvl ≤ max ∧ min ≤ loadLvl then
        some { srv with handlers := srv.handlers.eraseIdx i }
      else
        some { srv with
          handlers := srv.handlers.eraseIdx i
          push := srv.push ++ [.help srv.epoch] }
  | some h =>
      (calculateStep srv.accessList h).map fun p =>
        { srv with
          accessList := p.1
          handlers := srv.handlers.set i p.2 }

end MeDiE.Server
