import MeDiE.Server.Dh
import MeDiE.System.Cases

/-!
# A run of `launch_all.sh` with `manager_dh.c` and `distribution_dh_s.c`

The script starts the clients on a part of the traces and waits until all of them have
come to their end.  Then it signals the servers: with `SIGUSR2`, and the manager with
them, in every step whose turn it is, and with `SIGUSR1` in the other steps.
`synchro.bash` waits for the ack files, and the script removes them and goes on.

What the servers, their threads and the clients do with each other is what they do in
`System`, whose state is a `view` of this one.  `eacl_calculate_sai` is one step here: the
script starts it when no client runs, and the manager has no table to send before it has
the list, so no other thread is at the access list meanwhile.
-/

namespace MeDiE.LaunchDh

open MeDiE.EaclDh
open MeDiE.ManagerDh
open MeDiE.Storage
open MeDiE.Table

/-- Where the script is.  The servers in `left` are still to be signalled. -/
inductive Point (nb : Nat)
  | clients
  | signal2 (left : List (Fin nb))
  | signalManager
  | signal1 (left : List (Fin nb))
  | wait (i : Nat)
  | search
  | wait1 (i : Nat)
  | remove
  deriving DecidableEq

/-- The manager, the servers, the clients, the files in `tmp_ack` and the script.  The
fields after `point` are not in the source: the tables sent out so far, the keys whose
last create was answered `done` with no delete accepted since, the servers whose lists the
manager has merged in this step, and whether it has sent a table in this step. -/
structure State (n nb : Nat) (C : Type) where
  mgr : ManagerDh.State n nb
  srv : Fin nb → ServerDh.State n nb C
  client : C → Client.State n nb
  ack0 : Fin nb → Bool
  ack1 : Fin nb → Bool
  turn : Nat
  point : Point nb
  mlts : List (MltPacket n nb)
  live : Key → Bool
  merged : List (Fin nb)
  sent : Bool

/-- Who moves. -/
inductive Label (nb : Nat) (C : Type)
  | threads (l : System.Label nb C)
  | startClient (c : C)
  | kill (s : Fin nb)
  | handler (s : Fin nb) (i : Nat)
  | createAck0 (s : Fin nb)
  | createAck1 (s : Fin nb)
  | manager
  | managerRecv (s : Fin nb)
  | script

variable {n nb : Nat} {C : Type} [NeZero nb]

def init (n nb : Nat) [NeZero nb] (C : Type) : State n nb C where
  mgr := ManagerDh.State.init n nb
  srv _ := ServerDh.State.init n nb C
  client _ := Client.State.init n nb
  ack0 _ := false
  ack1 _ := false
  turn := 1
  point := .clients
  mlts := []
  live _ := false
  merged := []
  sent := false

/-! ## The system in it -/

/-- The manager as the servers see it: its table, and whether it sends it. -/
def asManager (mgr : ManagerDh.State n nb) : Manager.State n nb :=
  { Manager.State.init n nb with
    table := mgr.table
    point :=
      match mgr.point with
      | .sendMlt => .sendMlt
      | .clear => .setProcessed
      | _ => .recv }

/-- The servers with the clients, as the system of `System`. -/
def State.view (x : State n nb C) : System.State n nb (EaclData n) C where
  mgr := asManager x.mgr
  srv s := (x.srv s).threads
  client := x.client
  log :=
    { asks := []
      mlts := x.mlts
      reports := []
      globalBefore := fun _ => 0
      live := x.live }

/-- The servers and the clients are those of `y`. -/
def State.put (x : State n nb C) (y : System.State n nb (EaclData n) C) : State n nb C :=
  { x with
    srv := fun s => { x.srv s with threads := y.srv s }
    client := y.client
    live := y.log.live }

/-- The steps of threads, main loops and clients.  Clients run in their part of the step
only, and `thread_mlt_updater` creates its file before it goes on. -/
def allowed (x : State n nb C) : System.Label nb C → Bool
  | .usrHandler2 => false
  | .manager => false
  | .managerRecv _ => false
  | .managerSend => false
  | .server _ .usr2 => false
  | .server _ (.handler _) => false
  | .server s .listener => !(x.srv s).acking
  | .server _ .sender => true
  | .server _ .receiver => true
  | .server _ .main => true
  | .takePacket _ _ => true
  | .replyPacket _ => true
  | .mainRecv _ _ => true
  | .mainReply _ => true
  | .clientSend _ _ _ => x.point = .clients
  | .clientRecv _ => true

/-- Server `s` goes on. -/
def State.setSrv (x : State n nb C) (s : Fin nb) (srv : ServerDh.State n nb C) :
    State n nb C :=
  { x with srv := Function.update x.srv s srv }

/-- A thread has made a step.  After the transfers comes the ack file. -/
def afterThreads (x : State n nb C) (l : System.Label nb C)
    (y : System.State n nb (EaclData n) C) : State n nb C :=
  match l with
  | .server s .listener =>
      match (x.srv s).threads.listener with
      | .transfer _ _ => (x.put y).setSrv s { (x.put y).srv s with acking := true }
      | _ => x.put y
  | _ => x.put y

/-! ## The manager -/

/-- The packet that carries the manager's table; there is no mean load in it. -/
def mltPacket (mgr : ManagerDh.State n nb) : MltPacket n nb where
  idSrv := mgr.table.idSrv
  nVer := mgr.table.nVer
  meanLoad := 0

/-- The packet is put on the socket of every server. -/
def State.publish (x : State n nb C) (packet : MltPacket n nb) : State n nb C :=
  { x with
    srv := fun s =>
      { x.srv s with
        threads := { (x.srv s).threads with sub := (x.srv s).threads.sub ++ [.mlt packet] } }
    mlts := x.mlts ++ [packet]
    sent := true }

/-- The manager goes on. -/
def managerStep (x : State n nb C) : Option (State n nb C) :=
  (localStep x.mgr).map fun mgr =>
    match x.mgr.point with
    | .sendMlt => { x.publish (mltPacket x.mgr) with mgr := mgr }
    | _ => { x with mgr := mgr }

/-- The manager receives a list of server `s`. -/
def managerRecv (x : State n nb C) (s : Fin nb) : Option (State n nb C) :=
  match (x.srv s).push with
  | [] => none
  | sai :: push =>
      (recvStep x.mgr sai).map fun mgr =>
        { x.setSrv s { x.srv s with push := push } with
          mgr := mgr
          merged := x.merged ++ [s] }

/-! ## The script -/

/-- The client has no request under way. -/
def idle (client : Client.State n nb) : Bool :=
  match client.point with
  | .idle => true
  | _ => false

section Step

variable [DecidableEq C]

/-- A client process is started. -/
def startClient (x : State n nb C) (c : C) : Option (State n nb C) :=
  if x.point = .clients ∧ idle (x.client c) = true then
    some { x with client := Function.update x.client c (Client.State.init n nb) }
  else none

omit [DecidableEq C] in
/-- `kill` reaches a server. -/
def kill (x : State n nb C) (s : Fin nb) : Option (State n nb C) :=
  match x.point with
  | .signal2 left =>
      if left.contains s then
        some { x.setSrv s (ServerDh.usr2Handler (x.srv s)) with point := .signal2 (left.erase s) }
      else none
  | .signal1 left =>
      if left.contains s then
        some { x.setSrv s (ServerDh.usr1Handler (x.srv s)) with point := .signal1 (left.erase s) }
      else none
  | _ => none

variable [Fintype C]

omit [DecidableEq C] in
/-- The next command of the script; `distrib` is its last argument. -/
def scriptStep (distrib : Nat) (x : State n nb C) : Option (State n nb C) :=
  match x.point with
  | .clients =>
      if ∀ c, idle (x.client c) = true then
        if x.turn = distrib then some { x with point := .signal2 (List.finRange nb) }
        else
          some { x with
            turn := x.turn + 1
            point := .signal1 (List.finRange nb) }
      else none
  | .signal2 [] => some { x with point := .signalManager }
  | .signal2 (_ :: _) => none
  | .signalManager =>
      some { x with
        mgr := usrHandler2 x.mgr
        turn := 1
        point := .wait 0 }
  | .signal1 [] => some { x with point := .wait 0 }
  | .signal1 (_ :: _) => none
  | .wait i =>
      if h : i < nb then
        if x.ack0 ⟨i, h⟩ = true ∨ x.ack1 ⟨i, h⟩ = true then some { x with point := .wait (i + 1) }
        else none
      else some { x with point := .search }
  | .search =>
      if ∃ s, x.ack1 s = true then some { x with point := .wait1 0 }
      else some { x with point := .remove }
  | .wait1 i =>
      if h : i < nb then
        if x.ack1 ⟨i, h⟩ = true then some { x with point := .wait1 (i + 1) } else none
      else some { x with point := .remove }
  | .remove =>
      some { x with
        ack0 := fun _ => false
        ack1 := fun _ => false
        point := .clients
        merged := []
        sent := false }

def step (hash : Key → Fin n) (distrib : Nat) (l : Label nb C) (x : State n nb C) :
    Option (State n nb C) :=
  match l with
  | .threads l =>
      if allowed x l = true then (System.step hash l x.view).map (afterThreads x l) else none
  | .startClient c => startClient x c
  | .kill s => kill x s
  | .handler s i =>
      if (x.srv s).threads.main.alive = true then
        (ServerDh.handlerStep (x.srv s) i).map (x.setSrv s)
      else none
  | .createAck0 s =>
      match (x.srv s).measuring with
      | 0 => none
      | measuring + 1 =>
          if (x.srv s).threads.main.alive = true then
            some { x.setSrv s { x.srv s with measuring := measuring } with
              ack0 := Function.update x.ack0 s true }
          else none
  | .createAck1 s =>
      if (x.srv s).threads.main.alive = true ∧ (x.srv s).acking = true then
        some { x.setSrv s { x.srv s with acking := false } with
          ack1 := Function.update x.ack1 s true }
      else none
  | .manager => managerStep x
  | .managerRecv s => managerRecv x s
  | .script => scriptStep distrib x

/-! ## The cases of a step -/

inductive Step (hash : Key → Fin n) (distrib : Nat) (x : State n nb C) :
    Label nb C → State n nb C → Prop
  | threads (l : System.Label nb C) (y : System.State n nb (EaclData n) C)
      (hallowed : allowed x l = true) (h : System.Step hash x.view l y) :
      Step hash distrib x (.threads l) (afterThreads x l y)
  | startClient (c : C) (hp : x.point = .clients) (hc : idle (x.client c) = true) :
      Step hash distrib x (.startClient c)
        { x with client := Function.update x.client c (Client.State.init n nb) }
  | kill2 (s : Fin nb) (left : List (Fin nb)) (hp : x.point = .signal2 left) (hs : s ∈ left) :
      Step hash distrib x (.kill s)
        { x.setSrv s (ServerDh.usr2Handler (x.srv s)) with point := .signal2 (left.erase s) }
  | kill1 (s : Fin nb) (left : List (Fin nb)) (hp : x.point = .signal1 left) (hs : s ∈ left) :
      Step hash distrib x (.kill s)
        { x.setSrv s (ServerDh.usr1Handler (x.srv s)) with point := .signal1 (left.erase s) }
  | handler (s : Fin nb) (i : Nat) (srv : ServerDh.State n nb C)
      (h : ServerDh.HandlerStep (x.srv s) i srv)
      (halive : (x.srv s).threads.main.alive = true) :
      Step hash distrib x (.handler s i) (x.setSrv s srv)
  | createAck0 (s : Fin nb) (measuring : Nat) (hs : (x.srv s).measuring = measuring + 1)
      (halive : (x.srv s).threads.main.alive = true) :
      Step hash distrib x (.createAck0 s)
        { x.setSrv s { x.srv s with measuring := measuring } with
          ack0 := Function.update x.ack0 s true }
  | createAck1 (s : Fin nb) (hs : (x.srv s).acking = true)
      (halive : (x.srv s).threads.main.alive = true) :
      Step hash distrib x (.createAck1 s)
        { x.setSrv s { x.srv s with acking := false } with
          ack1 := Function.update x.ack1 s true }
  | manager (mgr : ManagerDh.State n nb) (h : LocalStep x.mgr mgr)
      (hp : x.mgr.point ≠ .sendMlt) : Step hash distrib x .manager { x with mgr := mgr }
  | publish (hp : x.mgr.point = .sendMlt) :
      Step hash distrib x .manager
        { x.publish (mltPacket x.mgr) with mgr := { x.mgr with point := .clear } }
  | managerRecv (s : Fin nb) (nbRcv : Nat) (sai : Fin n → Nat) (push : List (Fin n → Nat))
      (hp : x.mgr.point = .collect nbRcv) (hrcv : nbRcv < nb)
      (hpush : (x.srv s).push = sai :: push) :
      Step hash distrib x (.managerRecv s)
        { x.setSrv s { x.srv s with push := push } with
          mgr :=
            { x.mgr with
              globalList := managerMergeEacl x.mgr.globalList sai
              point := .collect (nbRcv + 1) }
          merged := x.merged ++ [s] }
  | rebalance (hp : x.point = .clients) (hidle : ∀ c, idle (x.client c) = true)
      (hturn : x.turn = distrib) :
      Step hash distrib x .script { x with point := .signal2 (List.finRange nb) }
  | measure (hp : x.point = .clients) (hidle : ∀ c, idle (x.client c) = true) :
      Step hash distrib x .script
        { x with
          turn := x.turn + 1
          point := .signal1 (List.finRange nb) }
  | signalled2 (hp : x.point = .signal2 []) :
      Step hash distrib x .script { x with point := .signalManager }
  | signalManager (hp : x.point = .signalManager) :
      Step hash distrib x .script
        { x with
          mgr := usrHandler2 x.mgr
          turn := 1
          point := .wait 0 }
  | signalled1 (hp : x.point = .signal1 []) :
      Step hash distrib x .script { x with point := .wait 0 }
  | found (i : Nat) (hi : i < nb) (hp : x.point = .wait i)
      (hack : x.ack0 ⟨i, hi⟩ = true ∨ x.ack1 ⟨i, hi⟩ = true) :
      Step hash distrib x .script { x with point := .wait (i + 1) }
  | foundAll (i : Nat) (hi : nb ≤ i) (hp : x.point = .wait i) :
      Step hash distrib x .script { x with point := .search }
  | searchFound (hp : x.point = .search) :
      Step hash distrib x .script { x with point := .wait1 0 }
  | searchNone (hp : x.point = .search) :
      Step hash distrib x .script { x with point := .remove }
  | found1 (i : Nat) (hi : i < nb) (hp : x.point = .wait1 i) :
      Step hash distrib x .script { x with point := .wait1 (i + 1) }
  | found1All (i : Nat) (hi : nb ≤ i) (hp : x.point = .wait1 i) :
      Step hash distrib x .script { x with point := .remove }
  | remove (hp : x.point = .remove) :
      Step hash distrib x .script
        { x with
          ack0 := fun _ => false
          ack1 := fun _ => false
          point := .clients
          merged := []
          sent := false }

omit [DecidableEq C] in
private theorem step_of_scriptDh {hash : Key → Fin n} {distrib : Nat} {x y : State n nb C}
    [DecidableEq C] (h : scriptStep distrib x = some y) : Step hash distrib x .script y := by
  unfold scriptStep at h
  split at h
  · split at h
    · split at h <;> cases h
      · exact Step.rebalance ‹_› ‹_› ‹_›
      · exact Step.measure ‹_› ‹_›
    · cases h
  · cases h
    exact Step.signalled2 ‹_›
  · cases h
  · cases h
    exact Step.signalManager ‹_›
  · cases h
    exact Step.signalled1 ‹_›
  · cases h
  · rename_i i hp
    split at h
    · split at h <;> cases h
      exact Step.found i ‹_› hp ‹_›
    · cases h
      exact Step.foundAll i (Nat.le_of_not_lt ‹_›) hp
  · split at h <;> cases h
    · exact Step.searchFound ‹_›
    · exact Step.searchNone ‹_›
  · rename_i i hp
    split at h
    · split at h <;> cases h
      exact Step.found1 i ‹_› hp
    · cases h
      exact Step.found1All i (Nat.le_of_not_lt ‹_›) hp
  · cases h
    exact Step.remove ‹_›

/-- `Step` covers every step. -/
theorem step_cases {hash : Key → Fin n} {distrib : Nat} {l : Label nb C} {x y : State n nb C}
    (h : step hash distrib l x = some y) : Step hash distrib x l y := by
  cases l with
  | threads l =>
      rw [step] at h
      split at h
      · obtain ⟨z, hz, rfl⟩ := Option.map_eq_some_iff.mp h
        exact Step.threads l z ‹_› (System.step_cases hz)
      · cases h
  | startClient c =>
      simp only [step, startClient] at h
      split at h <;> cases h
      rename_i hc
      exact Step.startClient c hc.1 hc.2
  | kill s =>
      simp only [step, kill] at h
      split at h
      · split at h <;> cases h
        exact Step.kill2 s _ ‹_› (List.contains_iff_mem.mp ‹_›)
      · split at h <;> cases h
        exact Step.kill1 s _ ‹_› (List.contains_iff_mem.mp ‹_›)
      · cases h
  | handler s i =>
      simp only [step] at h
      split at h
      · obtain ⟨srv, hsrv, rfl⟩ := Option.map_eq_some_iff.mp h
        exact Step.handler s i srv (ServerDh.handlerStep_cases hsrv) ‹_›
      · cases h
  | createAck0 s =>
      simp only [step] at h
      split at h
      · cases h
      · split at h <;> cases h
        exact Step.createAck0 s _ ‹_› ‹_›
  | createAck1 s =>
      simp only [step] at h
      split at h <;> cases h
      rename_i hs
      exact Step.createAck1 s hs.2 hs.1
  | manager =>
      obtain ⟨mgr, hmgr, heq⟩ := Option.map_eq_some_iff.mp h
      split at heq
      · rename_i hp
        rw [localStep, hp] at hmgr
        cases hmgr
        exact heq ▸ Step.publish hp
      · rename_i hp
        exact heq ▸ Step.manager mgr (localStep_cases hmgr) hp
  | managerRecv s =>
      simp only [step, managerRecv] at h
      split at h
      · cases h
      · rename_i sai push hpush
        obtain ⟨mgr, hmgr, rfl⟩ := Option.map_eq_some_iff.mp h
        obtain ⟨nbRcv, hp, hrcv, rfl⟩ := recvStep_cases hmgr
        exact Step.managerRecv s nbRcv sai push hp hrcv hpush
  | script => exact step_of_scriptDh h

end Step

end MeDiE.LaunchDh
