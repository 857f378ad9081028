import MeDiE.Server.LoadArgs
import MeDiE.Server.State

/-!
# `thread_load_sender` and `thread_load_receiver`

One step is one call of the source with the tests around it.  `none` means that
the thread has to wait.  Where the source follows a null pointer the process
ends.  The hosts file has a line for every server, so the sender finds
the address of each of them; sockets do not fail.
-/

namespace MeDiE.Server

open MeDiE.Storage
open MeDiE.Table

variable {n nb : Nat} {A C : Type} [Eacl A n]

/-- `thread_load_sender`, while `receiver` is where the other thread is. -/
def senderStep (srv : State n nb A C) (sender : LoadSender n nb)
    (receiver : LoadReceiver n nb) : Option (State n nb A C) :=
  match sender with
  | .next [] => some { srv with listener := .transfer .finished receiver }
  | .next ((server, entry) :: toSend) =>
      some { srv with
        listener := .transfer (.drain server toSend (Packing.start entry)) receiver }
  | .drain server toSend packet =>
      match srv.inChargeMd packet.entry with
      | [] => some { srv with listener := .transfer (.send server toSend packet) receiver }
      | _ :: _ => some { srv with listener := .transfer (.pop server toSend packet) receiver }
  | .pop server toSend packet =>
      match mdEntryPop (srv.inChargeMd packet.entry) with
      | none => some srv.crash
      | some (mdName, head) =>
          some { srv with
            inChargeMd := Function.update srv.inChargeMd packet.entry head
            listener := .transfer (.del server toSend packet mdName) receiver }
  | .del server toSend packet mdName =>
      match genericDel srv.store mdName with
      | none => some { srv with listener := .transfer .failed receiver }
      | some store =>
          some { srv with
            store := store
            listener := .transfer (.drain server toSend (packet.append mdName)) receiver }
  | .send server toSend packet =>
      some { srv with
        wire := some (server, packet.finish)
        listener := .transfer (.updateState packet.entry toSend) receiver }
  | .updateState entry toSend =>
      some { srv with
        table := srv.table.updateState entry false
        listener := .transfer (.resetEacl entry toSend) receiver }
  | .resetEacl entry toSend =>
      some { srv with
        accessList := Eacl.resetAllEntry srv.accessList entry
        listener := .transfer (.recvAck entry toSend) receiver }
  | .recvAck _ toSend =>
      if srv.ack = true then
        some { srv with
          ack := false
          listener := .transfer (.next toSend) receiver }
      else none
  | .finished => none
  | .failed => none

/-- "a word", what the receiver writes into the files of the keys it is sent. -/
def aWord : Data := ⟨[97, 32, 119, 111, 114, 100], by decide⟩

/-- `thread_load_receiver`, but for receiving a packet and answering it. -/
def receiverStep (srv : State n nb A C) (sender : LoadSender n nb)
    (receiver : LoadReceiver n nb) : Option (State n nb A C) :=
  match receiver with
  | .recv 0 => some { srv with listener := .transfer sender .finished }
  | .recv (_ + 1) => none
  | .unpack source entry [] left =>
      some { srv with listener := .transfer sender (.updateState source entry left) }
  | .unpack source entry (mdName :: mdNames) left =>
      some { srv with
        inChargeMd := Function.update srv.inChargeMd entry
          (mdEntryInsert (srv.inChargeMd entry) mdName)
        listener := .transfer sender (.put source entry mdNames left) }
  | .put source entry mdNames left =>
      match srv.inChargeMd entry with
      | [] => some srv.crash
      | mdName :: _ =>
          match genericPut srv.store mdName aWord with
          | none => some { srv with listener := .transfer sender .failed }
          | some store =>
              some { srv with
                store := store
                listener := .transfer sender (.unpack source entry mdNames left) }
  | .updateState source entry left =>
      some { srv with
        table := srv.table.updateState entry false
        listener := .transfer sender (.resetEacl source entry left) }
  | .resetEacl source entry left =>
      some { srv with
        accessList := Eacl.resetAllEntry srv.accessList entry
        listener := .transfer sender (.reply source entry left) }
  | .reply _ _ _ => none
  | .finished => none
  | .failed => none

/-- A thread has come to its end, one way or the other. -/
def LoadSender.exited : LoadSender n nb → Bool
  | .finished => true
  | .failed => true
  | _ => false

def LoadReceiver.exited : LoadReceiver n nb → Bool
  | .finished => true
  | .failed => true
  | _ => false

end MeDiE.Server
