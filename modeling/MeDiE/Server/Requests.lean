import MeDiE.Server.State

/-!
# Requests (`server.c`, `distribution_post_receive`, `distribution_pre_send`)

The main loop takes a request, checks it against the table and counts the access,
does the storage operation, and brings the list of names up to date before the
answer is sent.
-/

namespace MeDiE.Server

open MeDiE.Storage
open MeDiE.Table

variable {n nb : Nat} {A C : Type} [Eacl A n]

/-- What `distribution_post_receive` says of a request. -/
inductive Verdict (n nb : Nat)
  | accepted
  | refused (reply : Reply n nb)

/-- `distribution_post_receive` up to the access counter. -/
def distributionPostReceive (table : Mlt n (Fin nb)) (request : Request n) :
    Verdict n nb :=
  if table.state request.index = true then .refused .waitRetry
  else if request.entryVersion ≠ table.nVer request.index then
    .refused (.updateRetry request.index (table.idSrv request.index)
      (table.nVer request.index))
  else .accepted

/-- A request is accepted exactly if its entry is not being transferred and its
version is the version of the row. -/
theorem distributionPostReceive_accepted {table : Mlt n (Fin nb)} {request : Request n} :
    distributionPostReceive table request = .accepted ↔
      table.state request.index = false ∧
        request.entryVersion = table.nVer request.index := by
  unfold distributionPostReceive
  split
  · simp_all
  · split <;> simp_all

/-- What the storage operation of `main` comes to: it returns, with `global_rc` and the
value for the reply; or `json_object_new_string` is given a null pointer; or
`generic_get` writes behind its buffer. -/
inductive StorageResult
  | returned (store : Store) (done : Bool) (getValue : Option Data)
  | nullString
  | overrun

/-- The storage operation of `main`. -/
def storageOperation (store : Store) (request : Request n) : StorageResult :=
  match request.reqType with
  | .create data =>
      match genericPut store request.key data with
      | none => .returned store false none
      | some store => .returned store true none
  | .update data =>
      match genericUpdate store request.key data with
      | none => .returned store false none
      | some store => .returned store true none
  | .delete =>
      match genericDel store request.key with
      | none => .returned store false none
      | some store => .returned store true none
  | .read =>
      match genericGet store request.key with
      | .null => .nullString
      | .value value => .returned store true (some value)
      | .overrun => .overrun

theorem storageOperation_eq_nullString {store : Store} {request : Request n} :
    storageOperation store request = .nullString ↔
      request.reqType = .read ∧ store request.key = none := by
  unfold storageOperation
  cases htype : request.reqType with
  | create data => cases h : genericPut store request.key data <;> simp [h]
  | update data => cases h : genericUpdate store request.key data <;> simp [h]
  | delete => cases genericDel store request.key <;> simp
  | read =>
      rw [← genericGet_eq_null]
      cases genericGet store request.key <;> simp

theorem storageOperation_eq_overrun {store : Store} {request : Request n} :
    storageOperation store request = .overrun ↔
      request.reqType = .read ∧
        ∃ data, store request.key = some data ∧ 10 ≤ data.bytes.length := by
  unfold storageOperation
  cases htype : request.reqType with
  | create data => cases h : genericPut store request.key data <;> simp [h]
  | update data => cases h : genericUpdate store request.key data <;> simp [h]
  | delete => cases genericDel store request.key <;> simp
  | read =>
      rw [← genericGet_eq_overrun]
      cases genericGet store request.key <;> simp

/-- `eacl_incr_access` and the storage operation; `none` while the main loop is
waiting for a request or about to answer one, and where what happens is not defined. -/
def mainStep (srv : State n nb A C) : Option (State n nb A C) :=
  match srv.main with
  | .incrAccess client request =>
      some { srv with
        accessList := Eacl.incrAccess srv.accessList request.index
        main := .storage client request }
  | .storage client request =>
      match storageOperation srv.store request with
      | .returned store done getValue =>
          some { srv with
            store := store
            main := .preSend client request done getValue }
      | .nullString => some srv.crash
      | .overrun => none
  | .recv => none
  | .preSend _ _ _ _ => none
  | .crashed => none

/-- `distribution_pre_send`: the list of names of the entry and the return code. -/
def distributionPreSend (head : List Key) (request : Request n) (done : Bool) :
    List Key × Bool :=
  if done = true then
    match request.reqType with
    | .create _ => (mdEntryInsert head request.key, true)
    | .delete =>
        match mdEntrySearchMdName head request.key with
        | none => (head, false)
        | some head => (head, true)
    | .read => (head, true)
    | .update _ => (head, true)
  else (head, true)

/-- The last step of a request: `distribution_pre_send` and the answer. -/
def mainReply (srv : State n nb A C) : Option (State n nb A C × C × Reply n nb) :=
  match srv.main with
  | .preSend client request done getValue =>
      let r := distributionPreSend (srv.inChargeMd request.index) request done
      some ({ srv with
          inChargeMd := Function.update srv.inChargeMd request.index r.1
          main := .recv },
        client, if done && r.2 then .done getValue else .aborted)
  | _ => none

/-- The first step: a request of `client` is taken from the socket. -/
def mainRecv (srv : State n nb A C) (client : C) (request : Request n) :
    Option (State n nb A C × Option (Reply n nb)) :=
  match srv.main with
  | .recv =>
      match distributionPostReceive srv.table request with
      | .accepted => some ({ srv with main := .incrAccess client request }, none)
      | .refused reply => some (srv, some reply)
  | _ => none

end MeDiE.Server
