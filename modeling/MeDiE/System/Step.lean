import MeDiE.Client.Distribution
import MeDiE.Manager.Main
import MeDiE.Server.Step
import MeDiE.Verified.Transition

/-!
# The whole system

The manager, `nb` servers and any clients, with the messages between them.  The
sockets deliver every message once and in order per connection.  A step is a step
of one party; any party may move next.

`Log` is not in the source.  It records what has been sent and received, for the
statements about runs.
-/

namespace MeDiE.System

open MeDiE.Storage
open MeDiE.Table

/-- An `EACL_MSG` that the manager has received. -/
structure Report (n nb : Nat) where
  id : Fin nb
  sai : Fin n → Nat
  loadLvl : Nat

/-- The epochs of the `ASK`s and the `MLT`s sent so far, oldest first; the
`EACL`s received in the round, and `global_list` before them; and the keys whose
last create was answered `done` with no delete accepted since. -/
structure Log (n nb : Nat) where
  asks : List Nat
  mlts : List (MltPacket n nb)
  reports : List (Report n nb)
  globalBefore : Fin n → Nat
  live : Key → Bool

structure State (n nb : Nat) (A C : Type) where
  mgr : Manager.State n nb
  srv : Fin nb → Server.State n nb A C
  client : C → Client.State n nb
  log : Log n nb

/-- Who moves. -/
inductive Label (nb : Nat) (C : Type)
  | usrHandler2
  | manager
  | managerRecv (s : Fin nb)
  | managerSend
  | server (s : Fin nb) (l : Server.Label)
  | takePacket (w s : Fin nb)
  | replyPacket (w : Fin nb)
  | mainRecv (s : Fin nb) (client : C)
  | mainReply (s : Fin nb)
  | clientSend (client : C) (key : Key) (reqType : ReqType)
  | clientRecv (client : C)

/-- A condition on the steps of servers is decided by what it is for a server. -/
@[reducible] def decidableOnServer {nb : Nat} {C : Type} (P : Fin nb → Server.Label → Prop)
    [∀ s l, Decidable (P s l)] :
    (l : Label nb C) → Decidable (match l with | .server s l' => P s l' | _ => True)
  | .server s l' => inferInstanceAs (Decidable (P s l'))
  | .usrHandler2 | .manager | .managerRecv _ | .managerSend | .takePacket _ _
  | .replyPacket _ | .mainRecv _ _ | .mainReply _ | .clientSend _ _ _ | .clientRecv _ =>
      isTrue trivial

/-- Systems of two servers. -/
instance neZeroTwo : NeZero 2 := ⟨two_ne_zero⟩

variable {n nb : Nat} {A C : Type} [Eacl A n]

def init (n nb : Nat) [NeZero nb] (A C : Type) [Eacl A n] : State n nb A C where
  mgr := Manager.State.init n nb
  srv _ := Server.State.init n nb A C
  client _ := Client.State.init n nb
  log :=
    { asks := []
      mlts := []
      reports := []
      globalBefore := fun _ => 0
      live := fun _ => false }

/-! ## The log -/

/-- The manager has sent a message. -/
def Log.sent (log : Log n nb) (mgr : Manager.State n nb) : FromManager n nb → Log n nb
  | .ask epoch =>
      { log with
        asks := log.asks ++ [epoch]
        reports := []
        globalBefore := mgr.globalList }
  | .mlt packet => { log with mlts := log.mlts ++ [packet] }

/-- The manager has received a message. -/
def Log.received (log : Log n nb) (point : Manager.Point) (packet : ToManager n nb) :
    Log n nb :=
  match point, packet with
  | .collect _, .eacl id sai loadLvl =>
      { log with reports := log.reports ++ [{ id := id, sai := sai, loadLvl := loadLvl }] }
  | _, _ => log

/-- A request has been accepted. -/
def Log.accepted (log : Log n nb) (request : Request n) : Log n nb :=
  match request.reqType with
  | .delete => { log with live := Function.update log.live request.key false }
  | _ => log

/-- A request has been answered. -/
def Log.answered (log : Log n nb) (request : Request n) (reply : Reply n nb) : Log n nb :=
  match request.reqType, reply with
  | .create _, .done _ => { log with live := Function.update log.live request.key true }
  | _, _ => log

/-! ## Steps -/

def State.setMgr (x : State n nb A C) (mgr : Manager.State n nb) : State n nb A C :=
  { x with mgr := mgr }

def State.setSrv (x : State n nb A C) (s : Fin nb) (srv : Server.State n nb A C) :
    State n nb A C :=
  { x with srv := Function.update x.srv s srv }

def State.setLog (x : State n nb A C) (log : Log n nb) : State n nb A C :=
  { x with log := log }

section Step

variable [DecidableEq C]

def State.setClient (x : State n nb A C) (c : C) (client : Client.State n nb) :
    State n nb A C :=
  { x with client := Function.update x.client c client }

/-- The manager's message is put on the socket of every server. -/
def State.publish (x : State n nb A C) (packet : FromManager n nb) : State n nb A C :=
  { x with
    srv := fun s => { x.srv s with sub := (x.srv s).sub ++ [packet] } }

/-- The receiver of `w` takes the packet of `s` off the wire. -/
def takePacket (x : State n nb A C) (w s : Fin nb) : Option (State n nb A C) :=
  match (x.srv w).listener, (x.srv s).wire with
  | .transfer sender (.recv (left + 1)), some (server, packet) =>
      if server = w ∧ (x.srv w).main.alive = true then
        let y := x.setSrv s { x.srv s with wire := none }
        some (y.setSrv w
          { y.srv w with
            listener := .transfer sender (.unpack s packet.entry packet.names left) })
      else none
  | _, _ => none

/-- The receiver of `w` answers the sender of the packet it has unpacked. -/
def replyPacket (x : State n nb A C) (w : Fin nb) : Option (State n nb A C) :=
  match (x.srv w).listener with
  | .transfer sender (.reply source _ left) =>
      if (x.srv w).main.alive = true then
        let y := x.setSrv source { x.srv source with ack := true }
        some (y.setSrv w { y.srv w with listener := .transfer sender (.recv left) })
      else none
  | _ => none

/-- The main loop of `s` takes the request of a client. -/
def mainRecv (x : State n nb A C) (s : Fin nb) (c : C) : Option (State n nb A C) :=
  match (x.client c).point with
  | .sent idSrv request =>
      if idSrv = s then
        match Server.mainRecv (x.srv s) c request with
        | none => none
        | some (srv, none) =>
            some (((x.setSrv s srv).setClient c { x.client c with point := .served }).setLog
              (x.log.accepted request))
        | some (_, some reply) =>
            some (x.setClient c { x.client c with point := .replied reply })
      else none
  | _ => none

/-- The main loop of `s` answers its client. -/
def mainReply (x : State n nb A C) (s : Fin nb) : Option (State n nb A C) :=
  match (x.srv s).main, Server.mainReply (x.srv s) with
  | .preSend _ request _ _, some (srv, c, reply) =>
      some (((x.setSrv s srv).setClient c { x.client c with point := .replied reply }).setLog
        (x.log.answered request reply))
  | _, _ => none

/-- The step of a label; `hash` is `MurmurHash3_x86_32` modulo `N_entry`. -/
def step (hash : Key → Fin n) (l : Label nb C) (x : State n nb A C) :
    Option (State n nb A C) :=
  match l with
  | .usrHandler2 => some (x.setMgr (Manager.usrHandler2 x.mgr))
  | .manager => (Manager.localStep x.mgr).map x.setMgr
  | .managerRecv s =>
      match (x.srv s).push with
      | [] => none
      | packet :: push =>
          match Manager.recvStep x.mgr packet with
          | none => none
          | some mgr =>
              some (((x.setMgr mgr).setSrv s { x.srv s with push := push }).setLog
                (x.log.received x.mgr.point packet))
  | .managerSend =>
      match Manager.sendStep x.mgr with
      | none => none
      | some (mgr, packet) =>
          some (((x.setMgr mgr).publish packet).setLog (x.log.sent x.mgr packet))
  | .server s l => (Server.step s (x.srv s) l).map (x.setSrv s)
  | .takePacket w s => takePacket x w s
  | .replyPacket w => replyPacket x w
  | .mainRecv s c => mainRecv x s c
  | .mainReply s => mainReply x s
  | .clientSend c key reqType =>
      (Client.sendRequest (x.client c) key reqType (hash key)).map (x.setClient c)
  | .clientRecv c => (Client.recvReply (x.client c)).map (x.setClient c)

end Step

end MeDiE.System
