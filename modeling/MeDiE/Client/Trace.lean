import MeDiE.Client.Distribution

/-!
# `main` of `client.c` with the wrappers of `client_api.c`

The client works through a trace.  After each request it looks at the return code,
and where it wants the request repeated it takes the counter of the loop back.

The four wrappers do not return the same codes for the same reply: a `get` without
a value in its reply has failed whatever the reply says, and for all but `create`
the loop does not know `-EALREADY`.  So some requests that a server has asked to
repeat are not repeated.  `performsAll_iff_repeated` says when all of them are.
-/

namespace MeDiE.Client

open MeDiE.Storage
open MeDiE.Table

variable {n nb : Nat}

def eagain : Int := 11

def ealready : Int := 114

/-- `client_request` after the reply has come: the table and the return code. -/
def clientRequest (table : Mlt n (Fin nb)) (reply : Reply n nb) : Mlt n (Fin nb) × Int :=
  match reply with
  | .done _ => (distributionPostReceive table reply, 0)
  | .updateRetry _ _ _ => (distributionPostReceive table reply, -eagain)
  | .waitRetry => (table, -ealready)
  | .aborted => (table, -1)

/-- The field `getValue` of a reply. -/
def getValue : Reply n nb → Option Data
  | .done value => value
  | .aborted => none
  | .updateRetry _ _ _ => none
  | .waitRetry => none

/-- `client_request_create`, `client_request_update` and `client_request_delete`. -/
def clientRequestWrite (table : Mlt n (Fin nb)) (reply : Reply n nb) :
    Mlt n (Fin nb) × Int := clientRequest table reply

/-- `client_request_read`. -/
def clientRequestRead (table : Mlt n (Fin nb)) (reply : Reply n nb) :
    Mlt n (Fin nb) × Int :=
  let r := clientRequest table reply
  match getValue reply with
  | none => (r.1, -1)
  | some _ => r

/-- One arm of the `switch` of `main`: the table, and whether the counter is taken
back. -/
def performRequest (table : Mlt n (Fin nb)) (reqType : ReqType) (reply : Reply n nb) :
    Mlt n (Fin nb) × Bool :=
  match reqType with
  | .create _ =>
      let r := clientRequestWrite table reply
      (r.1, r.2 = -eagain || r.2 = -ealready)
  | .read =>
      let r := clientRequestRead table reply
      (r.1, r.2 = -eagain)
  | .update _ =>
      let r := clientRequestWrite table reply
      (r.1, r.2 = -eagain)
  | .delete =>
      let r := clientRequestWrite table reply
      (r.1, r.2 = -eagain)

/-- A request that was sent, and the reply to it. -/
structure Exchange (n nb : Nat) where
  currentReq : Nat
  idSrv : Fin nb
  request : Request n
  reply : Reply n nb

/-- The variables of the loop.  `log` is not in the source. -/
structure Loop (n nb : Nat) where
  table : Mlt n (Fin nb)
  currentReq : Nat
  log : List (Exchange n nb)

/-- One round of the loop of `main`, in which `reply` is received. -/
def loopStep (hash : Key → Fin n) (requests : List (ReqType × Key)) (st : Loop n nb)
    (reply : Reply n nb) : Loop n nb :=
  match requests[st.currentReq]? with
  | none => st
  | some (reqType, key) =>
      let r := performRequest st.table reqType reply
      { table := r.1
        currentReq := if r.2 = true then st.currentReq else st.currentReq + 1
        log := st.log ++
          [{ currentReq := st.currentReq
             idSrv := st.table.idSrv (hash key)
             request :=
               { key := key
                 reqType := reqType
                 index := hash key
                 entryVersion := st.table.nVer (hash key) }
             reply := reply }] }

/-- The loop of `main` for as long as there are replies. -/
def runTrace (hash : Key → Fin n) (requests : List (ReqType × Key)) (table : Mlt n (Fin nb))
    (replies : List (Reply n nb)) : Loop n nb :=
  replies.foldl (loopStep hash requests)
    { table := table
      currentReq := 0
      log := [] }

/-! ## What the loop is for -/

/-- The reply is the outcome of the request. -/
def isFinal : Reply n nb → Bool
  | .done _ => true
  | .aborted => true
  | .updateRetry _ _ _ => false
  | .waitRetry => false

/-- Requests are sent in the order of the trace, each until it has a final reply:
the request after an exchange is the next one exactly if its reply was final, and
the requests passed have one final reply each. -/
structure PerformsAll (requests : List (ReqType × Key)) (st : Loop n nb) : Prop where
  sent : ∀ exchange ∈ st.log,
    requests[exchange.currentReq]? = some (exchange.request.reqType, exchange.request.key)
  order : ∀ k exchange, st.log[k]? = some exchange →
    ((st.log[k + 1]?).map Exchange.currentReq).getD st.currentReq =
      if isFinal exchange.reply = true then exchange.currentReq + 1
      else exchange.currentReq
  outcomes : (st.log.filter (fun exchange => isFinal exchange.reply)).map
    Exchange.currentReq = List.range st.currentReq

/-- A reply that asks for it has a request of the type repeated. -/
def Repeats : ReqType → Reply n nb → Prop
  | .create _, _ => True
  | .read, _ => False
  | .update _, .updateRetry _ _ _ => True
  | .update _, _ => False
  | .delete, .updateRetry _ _ _ => True
  | .delete, _ => False

/-- The replies, one after the other, to the requests of the trace, each of which
takes replies up to a final one: those before it have the request repeated. -/
def Repeated : List (ReqType × Key) → List (Reply n nb) → Prop
  | _, [] => True
  | [], _ :: _ => True
  | (reqType, key) :: requests, reply :: replies =>
      if isFinal reply = true then Repeated requests replies
      else Repeats reqType reply ∧ Repeated ((reqType, key) :: requests) replies

/-! ## One round -/

/-- The counter is taken back exactly if the type repeats requests on the reply. -/
theorem performRequest_again (table : Mlt n (Fin nb)) (reqType : ReqType)
    (reply : Reply n nb) :
    (performRequest table reqType reply).2 = true ↔
      isFinal reply = false ∧ Repeats reqType reply := by
  cases reqType <;> cases reply with
  | done value => cases value <;>
      simp [performRequest, clientRequestWrite, clientRequestRead, clientRequest, getValue,
        isFinal, eagain, ealready]
  | _ =>
      simp [performRequest, clientRequestWrite, clientRequestRead, clientRequest, getValue,
        isFinal, eagain, ealready, Repeats]

section Run

variable (hash : Key → Fin n) {requests : List (ReqType × Key)}

/-- Once the counter has passed a request without a final reply to it, it will not
come back to it. -/
def Lost (st : Loop n nb) : Prop :=
  ∃ i < st.currentReq, ∀ exchange ∈ st.log,
    isFinal exchange.reply = true → exchange.currentReq ≠ i

theorem Lost.not_performsAll {st : Loop n nb} (h : Lost st) : ¬ PerformsAll requests st := by
  intro hall
  obtain ⟨i, hi, hnone⟩ := h
  have hmem : i ∈ List.range st.currentReq := List.mem_range.mpr hi
  rw [← hall.outcomes, List.mem_map] at hmem
  obtain ⟨exchange, hexchange, heq⟩ := hmem
  rw [List.mem_filter] at hexchange
  exact hnone exchange hexchange.1 hexchange.2 heq

theorem Lost.loopStep {st : Loop n nb} (h : Lost st) (reply : Reply n nb) :
    Lost (loopStep hash requests st reply) := by
  obtain ⟨i, hi, hnone⟩ := h
  unfold Client.loopStep
  split
  · exact ⟨i, hi, hnone⟩
  · refine ⟨i, ?_, ?_⟩
    · show i < if _ then _ else _
      split
      · exact hi
      · exact Nat.lt_succ_of_lt hi
    · intro exchange hexchange hfinal
      rcases List.mem_append.mp hexchange with hold | hnew
      · exact hnone exchange hold hfinal
      · rw [List.mem_singleton.mp hnew]
        exact Nat.ne_of_gt hi

theorem Lost.foldl {st : Loop n nb} (h : Lost st) (replies : List (Reply n nb)) :
    Lost (replies.foldl (Client.loopStep hash requests) st) := by
  induction replies generalizing st with
  | nil => exact h
  | cons reply replies ih => exact ih (h.loopStep hash reply)

/-- What is sent next, once an exchange has been added to the log. -/
theorem PerformsAll.add {st : Loop n nb} (h : PerformsAll requests st)
    {exchange : Exchange n nb} (hreq : exchange.currentReq = st.currentReq)
    (hsent : requests[exchange.currentReq]? =
      some (exchange.request.reqType, exchange.request.key)) (table : Mlt n (Fin nb))
    {currentReq : Nat} (hnext : currentReq =
      if isFinal exchange.reply = true then st.currentReq + 1 else st.currentReq) :
    PerformsAll requests
      { table := table
        currentReq := currentReq
        log := st.log ++ [exchange] } where
  sent := by
    intro exchange' hexchange
    rcases List.mem_append.mp hexchange with hold | hnew
    · exact h.sent exchange' hold
    · rw [List.mem_singleton.mp hnew]
      exact hsent
  order := by
    intro k exchange' hk
    have hlt := (List.getElem?_eq_some_iff.mp hk).1
    rw [List.length_append, List.length_singleton] at hlt
    by_cases hlast : k = st.log.length
    · subst hlast
      rw [List.getElem?_append_right (Nat.le_refl _), Nat.sub_self] at hk
      cases hk
      rw [List.getElem?_eq_none (by simp), hreq]
      exact hnext
    · have hold : k < st.log.length := by omega
      rw [List.getElem?_append_left hold] at hk
      rw [← h.order k exchange' hk]
      by_cases hinner : k + 1 < st.log.length
      · rw [List.getElem?_append_left hinner, List.getElem?_eq_getElem hinner]
        rfl
      · have heq : k + 1 = st.log.length := by omega
        rw [heq, List.getElem?_append_right (Nat.le_refl _), Nat.sub_self,
          List.getElem?_eq_none (Nat.le_refl _)]
        exact hreq
  outcomes := by
    rw [List.filter_append, List.map_append, h.outcomes, hnext]
    by_cases hfinal : isFinal exchange.reply = true
    · simp [hfinal, hreq, List.range_succ]
    · simp [hfinal]

/-- A round with a reply that is final, or that has the request repeated. -/
theorem PerformsAll.loopStep {st : Loop n nb} (h : PerformsAll requests st)
    {reqType : ReqType} {key : Key} (hget : requests[st.currentReq]? = some (reqType, key))
    {reply : Reply n nb} (hreply : isFinal reply = true ∨ Repeats reqType reply) :
    PerformsAll requests (Client.loopStep hash requests st reply) ∧
      (Client.loopStep hash requests st reply).currentReq =
        if isFinal reply = true then st.currentReq + 1 else st.currentReq := by
  have hagain := performRequest_again st.table reqType reply
  have hcounter : (if (performRequest st.table reqType reply).2 = true then st.currentReq
      else st.currentReq + 1) =
      if isFinal reply = true then st.currentReq + 1 else st.currentReq := by
    by_cases hfinal : isFinal reply = true
    · rw [if_pos hfinal, if_neg]
      simp [hagain, hfinal]
    · rw [if_neg hfinal, if_pos]
      exact hagain.mpr ⟨by simpa using hfinal, hreply.resolve_left hfinal⟩
  unfold Client.loopStep
  rw [hget]
  exact ⟨h.add rfl hget _ hcounter, hcounter⟩

/-- A round with a reply that does neither: the request is lost. -/
theorem PerformsAll.lost {st : Loop n nb} (h : PerformsAll requests st)
    {reqType : ReqType} {key : Key} (hget : requests[st.currentReq]? = some (reqType, key))
    {reply : Reply n nb} (hfinal : isFinal reply = false) (hreply : ¬ Repeats reqType reply) :
    Lost (Client.loopStep hash requests st reply) := by
  have hagain : ¬ (performRequest st.table reqType reply).2 = true :=
    fun h => hreply ((performRequest_again _ _ _).mp h).2
  unfold Client.loopStep
  rw [hget]
  dsimp only
  rw [if_neg hagain]
  refine ⟨st.currentReq, Nat.lt_succ_self _, ?_⟩
  intro exchange hexchange hfinal' heq
  rcases List.mem_append.mp hexchange with hold | hnew
  · have hmem : exchange.currentReq ∈ List.range st.currentReq := by
      rw [← h.outcomes]
      exact List.mem_map_of_mem (List.mem_filter.mpr ⟨hold, hfinal'⟩)
    rw [heq, List.mem_range] at hmem
    exact absurd hmem (lt_irrefl _)
  · rw [List.mem_singleton.mp hnew, hfinal] at hfinal'
    cases hfinal'

theorem performsAll_foldl_iff {st : Loop n nb} (h : PerformsAll requests st)
    (replies : List (Reply n nb)) :
    PerformsAll requests (replies.foldl (Client.loopStep hash requests) st) ↔
      Repeated (requests.drop st.currentReq) replies := by
  induction replies generalizing st with
  | nil => simp [Repeated, h]
  | cons reply replies ih =>
      rw [List.foldl_cons]
      cases hget : requests[st.currentReq]? with
      | none =>
          have hdrop : requests.drop st.currentReq = [] := by
            rw [List.drop_eq_nil_iff]
            exact List.getElem?_eq_none_iff.mp hget
          have hstay : Client.loopStep hash requests st reply = st := by
            rw [Client.loopStep, hget]
          have hnil : ∀ replies : List (Reply n nb), Repeated [] replies := by
            intro replies
            cases replies <;> simp [Repeated]
          have hrest := ih h
          rw [hdrop] at hrest ⊢
          rw [hstay, hrest]
          simp only [hnil]
      | some request =>
          obtain ⟨reqType, key⟩ := request
          have hdrop : requests.drop st.currentReq =
              (reqType, key) :: requests.drop (st.currentReq + 1) := by
            obtain ⟨hlt, hgetElem⟩ := List.getElem?_eq_some_iff.mp hget
            rw [List.drop_eq_getElem_cons hlt, hgetElem]
          rw [hdrop, Repeated]
          by_cases hfinal : isFinal reply = true
          · obtain ⟨hnext, hcounter⟩ := h.loopStep hash hget (Or.inl hfinal)
            rw [if_pos hfinal] at hcounter ⊢
            rw [ih hnext, hcounter]
          · rw [if_neg hfinal]
            by_cases hrepeats : Repeats reqType reply
            · obtain ⟨hnext, hcounter⟩ := h.loopStep hash hget (Or.inr hrepeats)
              rw [if_neg hfinal] at hcounter
              rw [ih hnext, hcounter, hdrop]
              simp [hrepeats]
            · have hlost := h.lost hash hget (by simpa using hfinal) hrepeats
              simp [(hlost.foldl hash replies).not_performsAll, hrepeats]

end Run

/-- Whatever the requests, the table and the replies are, the trace is performed exactly if
no reply that asks for a repetition meets a request of a type that does not repeat on
it. -/
theorem performsAll_iff_repeated (hash : Key → Fin n) (requests : List (ReqType × Key))
    (table : Mlt n (Fin nb)) (replies : List (Reply n nb)) :
    PerformsAll requests (runTrace hash requests table replies) ↔
      Repeated requests replies := by
  have hstart : PerformsAll requests
      ({ table := table
         currentReq := 0
         log := [] } : Loop n nb) :=
    { sent := fun exchange hexchange => absurd hexchange List.not_mem_nil
      order := fun k exchange hk => by simp at hk
      outcomes := rfl }
  exact performsAll_foldl_iff hash hstart replies

/-- A `get` that is answered `update&retry` or `wait&retry` and an `update` that is
answered `wait&retry` are not sent again. -/
theorem exists_request_not_performed :
    ¬ PerformsAll [(.read, ⟨['k'], by decide, by decide⟩)]
      (runTrace (fun _ => (0 : Fin 1)) [(.read, ⟨['k'], by decide, by decide⟩)]
        (mltInit 1 2) [.updateRetry 0 1 1]) ∧
    ¬ PerformsAll [(.read, ⟨['k'], by decide, by decide⟩)]
      (runTrace (fun _ => (0 : Fin 1)) [(.read, ⟨['k'], by decide, by decide⟩)]
        (mltInit 1 2) [.waitRetry]) ∧
    ¬ PerformsAll [(.update .v, ⟨['k'], by decide, by decide⟩)]
      (runTrace (fun _ => (0 : Fin 1)) [(.update .v, ⟨['k'], by decide, by decide⟩)]
        (mltInit 1 2) [.waitRetry]) := by
  refine ⟨fun h => ?_, fun h => ?_, fun h => ?_⟩
  all_goals
    have houtcomes := h.outcomes
    revert houtcomes
    decide

end MeDiE.Client
