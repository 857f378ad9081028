import MeDiE.Storage.Generic

/-!
# Messages (`protocol_indedh.h`, `request.c`)

The manager and the servers exchange packets whose first frame is the message
type; clients and servers exchange JSON objects, whose fields are the fields of
the structures below.
-/

namespace MeDiE

open MeDiE.Storage

/-- `enum to_manager_msg` with the frames that follow. -/
inductive ToManager (n nb : Nat)
  | help (epoch : Nat)
  | eacl (id : Fin nb) (sai : Fin n → Nat) (loadLvl : Nat)

/-- The frames of an `MLT_MSG`. -/
structure MltPacket (n nb : Nat) where
  idSrv : Fin n → Fin nb
  nVer : Fin n → Nat
  meanLoad : Nat

/-- `enum from_manager_msg` with the frames that follow. -/
inductive FromManager (n nb : Nat)
  | ask (epoch : Nat)
  | mlt (packet : MltPacket n nb)

/-- `enum req_type` with the data that a request of the type carries. -/
inductive ReqType
  | create (data : Data)
  | read
  | update (data : Data)
  | delete
  deriving DecidableEq

/-- A request as `distribution_assign_srv_by_key` has filled it in. -/
structure Request (n : Nat) where
  key : Key
  reqType : ReqType
  index : Fin n
  entryVersion : Nat

/-- `repFlag` with the fields that a client reads beside it. -/
inductive Reply (n nb : Nat)
  | done (getValue : Option Data)
  | aborted
  | updateRetry (index : Fin n) (newSrv : Fin nb) (newVersion : Nat)
  | waitRetry

/-- The lists of `struct transfert_load_args` that a server makes for one MLT:
entries with the server they go to or come from. -/
structure Plan (n nb : Nat) where
  toSend : List (Fin nb × Fin n)
  toReceive : List (Fin nb × Fin n)
  deriving DecidableEq

end MeDiE
