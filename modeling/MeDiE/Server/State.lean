import MeDiE.Eacl.Basic
import MeDiE.Protocol
import MeDiE.Server.MdEntry
import MeDiE.Table.Mlt

/-!
# The state of a server

A server process has a main loop, a listener thread, which starts a sender and a
receiver thread for every MLT and waits for both, and handlers of `SIGUSR2`.
Each of them is at a point between two calls of the source; the state says which
point, with the local variables that are used after it.

A signal handler runs on top of any thread, so several of them may be under way.

A null pointer that is followed ends the process.  What it has in memory is gone
then; its files and what it has sent stay.
-/

namespace MeDiE.Server

open MeDiE.Storage
open MeDiE.Table

/-- Points of `distribution_signal2_action`, by what comes next.  `eacl_calculate_sai` is
entered at `calculateSai`.  In its loop, `loadSai` is before the test of `i`, at `loadCount`
the old value has been read, at `storeSai` the new index is about to be written, and at
`addLoad` it is about to be added to the load. -/
inductive Handler (n : Nat)
  | calculateSai
  | loadSai (i : Nat)
  | loadCount (i : Fin n) (old : Nat)
  | storeSai (i : Fin n) (value : Nat)
  | addLoad (i : Fin n)
  | setEaclEpoch
  | resetAccess
  | threshold
  | askRebalancing (thresholdMax thresholdMin : Nat)
  deriving DecidableEq

/-- Points of `thread_load_sender`.  `toSend` is what is left of the list. -/
inductive LoadSender (n nb : Nat)
  | next (toSend : List (Fin nb × Fin n))
  | drain (server : Fin nb) (toSend : List (Fin nb × Fin n)) (packet : Packing n)
  | pop (server : Fin nb) (toSend : List (Fin nb × Fin n)) (packet : Packing n)
  | del (server : Fin nb) (toSend : List (Fin nb × Fin n)) (packet : Packing n)
      (mdName : Key)
  | send (server : Fin nb) (toSend : List (Fin nb × Fin n)) (packet : Packing n)
  | updateState (entry : Fin n) (toSend : List (Fin nb × Fin n))
  | resetEacl (entry : Fin n) (toSend : List (Fin nb × Fin n))
  | recvAck (entry : Fin n) (toSend : List (Fin nb × Fin n))
  | finished
  | failed

/-- Points of `thread_load_receiver`.  `left` packets are still to come; `source`
is the server that the packet in hand has come from. -/
inductive LoadReceiver (n nb : Nat)
  | recv (left : Nat)
  | unpack (source : Fin nb) (entry : Fin n) (mdNames : List Key) (left : Nat)
  | put (source : Fin nb) (entry : Fin n) (mdNames : List Key) (left : Nat)
  | updateState (source : Fin nb) (entry : Fin n) (left : Nat)
  | resetEacl (source : Fin nb) (entry : Fin n) (left : Nat)
  | reply (source : Fin nb) (entry : Fin n) (left : Nat)
  | finished
  | failed

/-- Points of `thread_manager_listener`.  In `updateMlt`, `i` is the next row and
`plan` holds the lists made so far. -/
inductive Listener (n nb : Nat)
  | recv
  | checkEpoch (epochNeeded : Nat)
  | waitEpoch (epochNeeded : Nat)
  | readSai
  | sendEacl (sai : Fin n → Nat)
  | updateMlt (tempMlt : MltPacket n nb) (i : Nat) (plan : Plan n nb)
  | transfer (sender : LoadSender n nb) (receiver : LoadReceiver n nb)

/-- Points of the main loop of `server.c`, for the request of a client.  `crashed` stands
for the end of the process. -/
inductive Main (n : Nat) (C : Type)
  | recv
  | incrAccess (client : C) (request : Request n)
  | storage (client : C) (request : Request n)
  | preSend (client : C) (request : Request n) (done : Bool) (getValue : Option Data)
  | crashed

/-- The process has not ended. -/
def Main.alive {n : Nat} {C : Type} : Main n C → Bool
  | .crashed => false
  | _ => true

/-- A server.  `sub` and `push` are the messages on the sockets from and to the
manager, `wire` is the packet it has sent to another server and `ack` says that
the answer to it has come in.  `plans` is not in the source: it records the lists
that the sender and receiver threads have been started with. -/
structure State (n nb : Nat) (A C : Type) where
  table : Mlt n (Fin nb)
  accessList : A
  meanLoad : Nat
  epoch : Nat
  eaclEpoch : Nat
  inChargeMd : Fin n → List Key
  store : Store
  handlers : List (Handler n)
  listener : Listener n nb
  main : Main n C
  sub : List (FromManager n nb)
  push : List (ToManager n nb)
  wire : Option (Fin nb × Packet n)
  ack : Bool
  plans : List (Plan n nb)

/-- A null pointer has been followed: no thread of the process goes on. -/
def State.crash {n nb : Nat} {A C : Type} (srv : State n nb A C) : State n nb A C :=
  { srv with main := .crashed }

/-- `distribution_init`, with an empty local storage. -/
def State.init (n nb : Nat) [NeZero nb] (A C : Type) [Eacl A n] : State n nb A C where
  table := mltInit n nb
  accessList := Eacl.eaclInit
  meanLoad := 0
  epoch := 0
  eaclEpoch := 0
  inChargeMd _ := []
  store _ := none
  handlers := []
  listener := .recv
  main := .recv
  sub := []
  push := []
  wire := none
  ack := false
  plans := []

end MeDiE.Server
