import MeDiE.Protocol
import MeDiE.Table.Mlt

/-!
# Clients (`client_api.c`, `distribution_indedh_c.c`, `distribution_windowed_c.c`)

A client has a table of its own.  It routes a request by the entry of the key,
sends it with the version of the row, and corrects the row when a server answers
that it is out of date.
-/

namespace MeDiE.Client

open MeDiE.Storage
open MeDiE.Table

/-- Points of `client_request`.  A request that a server is working on is
`served`. -/
inductive Point (n nb : Nat)
  | idle
  | sent (idSrv : Fin nb) (request : Request n)
  | served
  | replied (reply : Reply n nb)

structure State (n nb : Nat) where
  table : Mlt n (Fin nb)
  point : Point n nb

variable {n nb : Nat}

def State.init (n nb : Nat) [NeZero nb] : State n nb where
  table := mltInit n nb
  point := .idle

/-- `distribution_assign_srv_by_key`, where `index` is the hash of the key modulo
`N_entry`, and the sending of the request. -/
def sendRequest (client : State n nb) (key : Key) (reqType : ReqType) (index : Fin n) :
    Option (State n nb) :=
  match client.point with
  | .idle =>
      some { client with
        point := .sent (client.table.idSrv index)
          { key := key
            reqType := reqType
            index := index
            entryVersion := client.table.nVer index } }
  | _ => none

/-- `distribution_post_receive`; the reply `wait&retry` does not get that far. -/
def distributionPostReceive (table : Mlt n (Fin nb)) : Reply n nb → Mlt n (Fin nb)
  | .updateRetry index newSrv newVersion =>
      table.updateEntry index newSrv newVersion false
  | .done _ => table
  | .aborted => table
  | .waitRetry => table

/-- The reply is processed. -/
def recvReply (client : State n nb) : Option (State n nb) :=
  match client.point with
  | .replied reply =>
      some
        { table := distributionPostReceive client.table reply
          point := .idle }
  | _ => none

end MeDiE.Client
