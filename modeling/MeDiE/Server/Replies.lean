import MeDiE.Eacl.Indedh
import MeDiE.Server.Requests

/-!
# The reply to a request

One turn of the main loop of `server.c`, from `zstr_recv` to `zstr_send`.  The flag of
the reply follows from the table, the storage call and `distribution_pre_send`.

A `get` of a missing key is not replied to: the error is noted, but the null pointer is
passed on to `json_object_new_string` all the same.  A `get` of a value of ten bytes or
more writes behind the buffer of `generic_get`.  And a `delete` is reported as failed when
the file is gone but the name is not in the list.
-/

namespace MeDiE.Server

open MeDiE.Storage
open MeDiE.Table

variable {n nb : Nat} {A C : Type}

/-- The field `repFlag`. -/
def repFlag : Reply n nb → String
  | .done _ => "done"
  | .aborted => "aborted"
  | .updateRetry _ _ _ => "update&retry"
  | .waitRetry => "wait&retry"

/-- The request is for an entry that is not on its way and has the version of its row. -/
def UpToDate (table : Mlt n (Fin nb)) (request : Request n) : Prop :=
  table.state request.index = false ∧ request.entryVersion = table.nVer request.index

/-- The storage call of the request succeeds: the file is new for a `create`, and there
for the others. -/
def Succeeds (store : Store) (request : Request n) : Prop :=
  match request.reqType with
  | .create _ => store request.key = none
  | .read => store request.key ≠ none
  | .update _ => store request.key ≠ none
  | .delete => store request.key ≠ none

/-- The reply tells what has happened, and only what is reported as done has changed
anything. -/
structure Truthful (request : Request n) (srv srv' : State n nb A C) (reply : Reply n nb) :
    Prop where
  waitRetry : repFlag reply = "wait&retry" ↔ srv.table.state request.index = true
  updateRetry : repFlag reply = "update&retry" ↔
    srv.table.state request.index = false ∧
      request.entryVersion ≠ srv.table.nVer request.index
  row : repFlag reply = "update&retry" → reply =
    .updateRetry request.index (srv.table.idSrv request.index) (srv.table.nVer request.index)
  done : repFlag reply = "done" ↔ UpToDate srv.table request ∧ Succeeds srv.store request
  aborted : repFlag reply = "aborted" ↔
    UpToDate srv.table request ∧ ¬ Succeeds srv.store request
  unchanged : repFlag reply ≠ "done" → srv'.store = srv.store ∧
    srv'.inChargeMd = srv.inChargeMd ∧ srv'.table = srv.table

/-- An accepted `get` of a key that is not stored or has a value of ten bytes or more, or
an accepted `delete` of a key that is stored and whose name is not in the list of the
entry. -/
def GoesWrong (srv : State n nb A C) (request : Request n) : Prop :=
  UpToDate srv.table request ∧
    ((request.reqType = .read ∧ ∀ data ∈ srv.store request.key, 10 ≤ data.bytes.length) ∨
      (request.reqType = .delete ∧ srv.store request.key ≠ none ∧
        request.key ∉ srv.inChargeMd request.index))

/-! ## When the reply is truthful -/

theorem truthful_waitRetry {srv : State n nb A C} {request : Request n}
    (hstate : srv.table.state request.index = true) :
    Truthful request srv srv .waitRetry := by
  constructor <;> simp [repFlag, UpToDate, hstate]

theorem truthful_updateRetry {srv : State n nb A C} {request : Request n}
    (hstate : srv.table.state request.index = false)
    (hversion : request.entryVersion ≠ srv.table.nVer request.index) :
    Truthful request srv srv (.updateRetry request.index (srv.table.idSrv request.index)
      (srv.table.nVer request.index)) := by
  constructor <;> simp [repFlag, UpToDate, hstate, hversion]

theorem truthful_done {srv srv' : State n nb A C} {request : Request n} (getValue : Option Data)
    (h : UpToDate srv.table request) (hsucceeds : Succeeds srv.store request) :
    Truthful request srv srv' (.done getValue) := by
  obtain ⟨hstate, hversion⟩ := h
  constructor <;> simp [repFlag, UpToDate, hstate, hversion, hsucceeds]

theorem truthful_aborted_iff {srv srv' : State n nb A C} {request : Request n}
    (h : UpToDate srv.table request) :
    Truthful request srv srv' .aborted ↔ ¬ Succeeds srv.store request ∧
      srv'.store = srv.store ∧ srv'.inChargeMd = srv.inChargeMd ∧ srv'.table = srv.table := by
  constructor
  · intro htruthful
    exact ⟨(htruthful.aborted.mp rfl).2, htruthful.unchanged (by simp [repFlag])⟩
  · rintro ⟨hfails, hunchanged⟩
    obtain ⟨hstate, hversion⟩ := h
    constructor <;> simp [repFlag, UpToDate, hstate, hversion, hfails, hunchanged]

/-! ## The storage call -/

/-- A `get` without a file or with a long value does not return to the main loop. -/
theorem storageOperation_of_read {store : Store} {request : Request n}
    (htype : request.reqType = .read)
    (h : ∀ data ∈ store request.key, 10 ≤ data.bytes.length) :
    storageOperation store request = .nullString ∨ storageOperation store request = .overrun := by
  rw [storageOperation_eq_nullString, storageOperation_eq_overrun]
  cases hvalue : store request.key with
  | none => exact Or.inl ⟨htype, rfl⟩
  | some data => exact Or.inr ⟨htype, data, rfl, h data hvalue⟩

/-- Another call that fails leaves the files. -/
theorem storageOperation_of_not_succeeds {store : Store} {request : Request n}
    (htype : request.reqType ≠ .read) (h : ¬ Succeeds store request) :
    storageOperation store request = .returned store false none := by
  obtain ⟨key, reqType, index, entryVersion⟩ := request
  cases reqType with
  | create value =>
      obtain ⟨old, hold⟩ := Option.ne_none_iff_exists'.mp h
      simp only at hold
      simp [storageOperation, genericPut, hold]
  | read => exact absurd rfl htype
  | update value =>
      have hnone : store key = none := by simpa [Succeeds] using h
      simp [storageOperation, genericUpdate, hnone]
  | delete =>
      have hnone : store key = none := by simpa [Succeeds] using h
      simp [storageOperation, genericDel, hnone]

theorem storageOperation_of_succeeds {store : Store} {request : Request n}
    (h : Succeeds store request)
    (hshort : request.reqType = .read → ∃ data ∈ store request.key, data.bytes.length < 10) :
    ∃ store' getValue, storageOperation store request = .returned store' true getValue := by
  obtain ⟨key, reqType, index, entryVersion⟩ := request
  cases reqType with
  | create value =>
      have hnone : store key = none := h
      refine ⟨Function.update store key (some value), none, ?_⟩
      simp [storageOperation, genericPut, hnone]
  | read =>
      obtain ⟨data, hdata, hlt⟩ := hshort rfl
      have hvalue : genericGet store key = .value data := genericGet_eq_value.mpr ⟨hdata, hlt⟩
      exact ⟨store, some data, by simp [storageOperation, hvalue]⟩
  | update value =>
      obtain ⟨old, hold⟩ := Option.ne_none_iff_exists'.mp h
      simp only at hold
      refine ⟨Function.update store key (some value), none, ?_⟩
      simp [storageOperation, genericUpdate, hold]
  | delete =>
      obtain ⟨old, hold⟩ := Option.ne_none_iff_exists'.mp h
      simp only at hold
      refine ⟨Function.update store key none, none, ?_⟩
      simp [storageOperation, genericDel, hold]

/-- After a storage call that succeeded only a `delete` can still fail. -/
theorem distributionPreSend_ok_iff (head : List Key) (request : Request n) :
    (distributionPreSend head request true).2 = true ↔
      (request.reqType = .delete → request.key ∈ head) := by
  obtain ⟨key, reqType, index, entryVersion⟩ := request
  cases reqType with
  | create value => simp [distributionPreSend]
  | read => simp [distributionPreSend]
  | update value => simp [distributionPreSend]
  | delete =>
      simp only [distributionPreSend, mdEntrySearchMdName_eq, if_true]
      by_cases hmem : key ∈ head <;> simp [hmem]

/-! ## What the turn does -/

variable [Eacl A n]

/-- One turn of the main loop: the server and the reply after it, or `none` if no reply
is sent. -/
def handleRequest (srv : State n nb A C) (client : C) (request : Request n) :
    Option (State n nb A C × Reply n nb) :=
  match mainRecv srv client request with
  | none => none
  | some (srv, some reply) => some (srv, reply)
  | some (srv, none) =>
      match (mainStep srv).bind mainStep with
      | none => none
      | some srv => (mainReply srv).map fun r => (r.1, r.2.2)

/-- The request gets a reply, and the reply is truthful. -/
def Answered (srv : State n nb A C) (client : C) (request : Request n) : Prop :=
  ∃ srv' reply, handleRequest srv client request = some (srv', reply) ∧
    Truthful request srv srv' reply

theorem handleRequest_of_state {srv : State n nb A C} {client : C} {request : Request n}
    (hmain : srv.main = .recv) (hstate : srv.table.state request.index = true) :
    handleRequest srv client request = some (srv, .waitRetry) := by
  simp [handleRequest, mainRecv, hmain, distributionPostReceive, hstate]

theorem handleRequest_of_version {srv : State n nb A C} {client : C} {request : Request n}
    (hmain : srv.main = .recv) (hstate : srv.table.state request.index = false)
    (hversion : request.entryVersion ≠ srv.table.nVer request.index) :
    handleRequest srv client request = some (srv, .updateRetry request.index
      (srv.table.idSrv request.index) (srv.table.nVer request.index)) := by
  simp [handleRequest, mainRecv, hmain, distributionPostReceive, hstate, hversion]

/-- The server after an accepted request. -/
def served (srv : State n nb A C) (request : Request n) (store : Store) (head : List Key) :
    State n nb A C :=
  { srv with
    accessList := Eacl.incrAccess srv.accessList request.index
    store := store
    inChargeMd := Function.update srv.inChargeMd request.index head
    main := .recv }

theorem handleRequest_of_upToDate {srv : State n nb A C} {client : C} {request : Request n}
    (hmain : srv.main = .recv) (h : UpToDate srv.table request) :
    handleRequest srv client request =
      match storageOperation srv.store request with
      | .nullString => none
      | .overrun => none
      | .returned store done getValue =>
          let r := distributionPreSend (srv.inChargeMd request.index) request done
          some (served srv request store r.1,
            if done && r.2 then .done getValue else .aborted) := by
  have haccepted := distributionPostReceive_accepted.mpr h
  simp only [handleRequest, mainRecv, hmain, haccepted, mainStep, Option.bind_some]
  cases storageOperation srv.store request <;> rfl

theorem answered_of_upToDate {srv : State n nb A C} (client : C) {request : Request n}
    (hmain : srv.main = .recv) (h : UpToDate srv.table request) :
    Answered srv client request ↔
      ¬ ((request.reqType = .read ∧
          ∀ data ∈ srv.store request.key, 10 ≤ data.bytes.length) ∨
        (request.reqType = .delete ∧ srv.store request.key ≠ none ∧
          request.key ∉ srv.inChargeMd request.index)) := by
  unfold Answered
  rw [handleRequest_of_upToDate hmain h]
  by_cases hlost : request.reqType = .read ∧
      ∀ data ∈ srv.store request.key, 10 ≤ data.bytes.length
  · refine iff_of_false ?_ fun hnot => hnot (Or.inl hlost)
    rcases storageOperation_of_read hlost.1 hlost.2 with hoperation | hoperation <;>
      simp [hoperation]
  by_cases hsucceeds : Succeeds srv.store request
  · obtain ⟨store, getValue, hoperation⟩ := storageOperation_of_succeeds hsucceeds (by
      intro htype
      by_contra hlong
      push Not at hlong
      exact hlost ⟨htype, hlong⟩)
    simp only [hoperation, Bool.true_and]
    have hstored : request.reqType = .delete → srv.store request.key ≠ none := by
      intro htype
      simpa [Succeeds, htype] using hsucceeds
    by_cases hok : (distributionPreSend (srv.inChargeMd request.index) request true).2 = true
    · rw [if_pos hok]
      have hlisted := (distributionPreSend_ok_iff _ _).mp hok
      constructor
      · rintro - (hread | ⟨htype, -, hnot⟩)
        · exact hlost hread
        · exact hnot (hlisted htype)
      · intro _
        exact ⟨_, _, rfl, truthful_done getValue h hsucceeds⟩
    · rw [if_neg hok]
      -- the file is gone, and the reply says otherwise
      have hwrong : request.reqType = .delete ∧ request.key ∉ srv.inChargeMd request.index := by
        rw [distributionPreSend_ok_iff] at hok
        exact Classical.not_imp.mp hok
      constructor
      · rintro ⟨srv', reply, heq, htruthful⟩
        cases heq
        exact absurd hsucceeds ((truthful_aborted_iff h).mp htruthful).1
      · intro hnot
        exact absurd (Or.inr ⟨hwrong.1, hstored hwrong.1, hwrong.2⟩) hnot
  · have htype : request.reqType ≠ .read := by
      intro htype
      have hnone : srv.store request.key = none := by
        simpa [Succeeds, htype] using hsucceeds
      exact hlost ⟨htype, by simp [hnone]⟩
    rw [storageOperation_of_not_succeeds htype hsucceeds]
    constructor
    · rintro - (⟨hread, -⟩ | ⟨hdelete, hstored, -⟩)
      · exact htype hread
      · exact hsucceeds (by simpa [Succeeds, hdelete] using hstored)
    · intro _
      refine ⟨_, _, rfl, (truthful_aborted_iff h).mpr ⟨hsucceeds, rfl, ?_, rfl⟩⟩
      exact Function.update_eq_self _ _

/-- In every state of the server in which the loop waits for a request, the request gets a
truthful reply if and only if it is neither an accepted `get` of a key that is not stored
or has a value of ten bytes or more, nor an accepted `delete` of a stored key that is not
listed. -/
theorem answered_iff (srv : State n nb A C) (client : C) (request : Request n)
    (hmain : srv.main = .recv) : Answered srv client request ↔ ¬ GoesWrong srv request := by
  by_cases h : UpToDate srv.table request
  · rw [answered_of_upToDate client hmain h, GoesWrong]
    simp only [h, true_and]
  · have hright : ¬ GoesWrong srv request := fun hwrong => h hwrong.1
    simp only [hright, not_false_eq_true, iff_true]
    cases hstate : srv.table.state request.index with
    | true => exact ⟨_, _, handleRequest_of_state hmain hstate, truthful_waitRetry hstate⟩
    | false =>
        have hversion : request.entryVersion ≠ srv.table.nVer request.index :=
          fun hversion => h ⟨hstate, hversion⟩
        exact ⟨_, _, handleRequest_of_version hmain hstate hversion,
          truthful_updateRetry hstate hversion⟩

/-- A request for key `g`, at a server that has just started. -/
def firstRequest (reqType : ReqType) : Request 1 where
  key := ⟨['g'], by decide, by decide⟩
  reqType := reqType
  index := 0
  entryVersion := 0

/-- A create is answered, and a `get` is not. -/
theorem answered_iff_firstRequest :
    Answered (State.init 1 1 (EaclIndedh.EaclData 1) Unit) () (firstRequest (.create .v)) ∧
      ¬ Answered (State.init 1 1 (EaclIndedh.EaclData 1) Unit) () (firstRequest .read) := by
  constructor
  · rw [answered_iff _ _ _ rfl]
    simp [GoesWrong, firstRequest]
  · rw [answered_iff _ _ _ rfl]
    simp [GoesWrong, firstRequest, UpToDate, State.init, mltInit]

/-- The `get` is not replied to. -/
theorem exists_unanswered :
    ¬ ∀ (srv : State 1 1 (EaclIndedh.EaclData 1) Unit) (request : Request 1),
      srv.main = .recv → Answered srv () request := by
  intro h
  obtain ⟨srv', reply, heq, -⟩ :=
    h (State.init 1 1 (EaclIndedh.EaclData 1) Unit) (firstRequest .read) rfl
  cases heq

end MeDiE.Server
