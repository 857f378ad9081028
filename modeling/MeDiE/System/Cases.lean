import MeDiE.System.Step

/-!
# The cases of a step of the system

`Step` says case by case what `step` does, with the state before and after.  The
invariants of the system are proved by cases of it.
-/

namespace MeDiE.System

open MeDiE.Storage
open MeDiE.Table
open MeDiE.Verified.Transition

variable {n nb : Nat} {A C : Type}

/-! ## Reading the state after an update -/

@[simp] theorem setMgr_mgr (x : State n nb A C) (mgr : Manager.State n nb) :
    (x.setMgr mgr).mgr = mgr := rfl

@[simp] theorem setMgr_srv (x : State n nb A C) (mgr : Manager.State n nb) :
    (x.setMgr mgr).srv = x.srv := rfl

@[simp] theorem setMgr_client (x : State n nb A C) (mgr : Manager.State n nb) :
    (x.setMgr mgr).client = x.client := rfl

@[simp] theorem setMgr_log (x : State n nb A C) (mgr : Manager.State n nb) :
    (x.setMgr mgr).log = x.log := rfl

@[simp] theorem setSrv_mgr (x : State n nb A C) (s : Fin nb)
    (srv : Server.State n nb A C) : (x.setSrv s srv).mgr = x.mgr := rfl

@[simp] theorem setSrv_srv (x : State n nb A C) (s : Fin nb)
    (srv : Server.State n nb A C) :
    (x.setSrv s srv).srv = Function.update x.srv s srv := rfl

@[simp] theorem setSrv_client (x : State n nb A C) (s : Fin nb)
    (srv : Server.State n nb A C) : (x.setSrv s srv).client = x.client := rfl

@[simp] theorem setSrv_log (x : State n nb A C) (s : Fin nb)
    (srv : Server.State n nb A C) : (x.setSrv s srv).log = x.log := rfl

@[simp] theorem setLog_mgr (x : State n nb A C) (log : Log n nb) :
    (x.setLog log).mgr = x.mgr := rfl

@[simp] theorem setLog_srv (x : State n nb A C) (log : Log n nb) :
    (x.setLog log).srv = x.srv := rfl

@[simp] theorem setLog_client (x : State n nb A C) (log : Log n nb) :
    (x.setLog log).client = x.client := rfl

@[simp] theorem setLog_log (x : State n nb A C) (log : Log n nb) :
    (x.setLog log).log = log := rfl

@[simp] theorem publish_mgr (x : State n nb A C) (packet : FromManager n nb) :
    (x.publish packet).mgr = x.mgr := rfl

@[simp] theorem publish_srv (x : State n nb A C) (packet : FromManager n nb)
    (s : Fin nb) :
    (x.publish packet).srv s =
      { x.srv s with sub := (x.srv s).sub ++ [packet] } := rfl

@[simp] theorem publish_client (x : State n nb A C) (packet : FromManager n nb) :
    (x.publish packet).client = x.client := rfl

@[simp] theorem publish_log (x : State n nb A C) (packet : FromManager n nb) :
    (x.publish packet).log = x.log := rfl

section Client

variable [DecidableEq C]

@[simp] theorem setClient_mgr (x : State n nb A C) (c : C) (client : Client.State n nb) :
    (x.setClient c client).mgr = x.mgr := rfl

@[simp] theorem setClient_srv (x : State n nb A C) (c : C) (client : Client.State n nb) :
    (x.setClient c client).srv = x.srv := rfl

@[simp] theorem setClient_client (x : State n nb A C) (c : C)
    (client : Client.State n nb) :
    (x.setClient c client).client = Function.update x.client c client := rfl

@[simp] theorem setClient_log (x : State n nb A C) (c : C) (client : Client.State n nb) :
    (x.setClient c client).log = x.log := rfl

end Client

/-! ## The log and the requests -/

@[simp] theorem Log.accepted_asks (log : Log n nb) (request : Request n) :
    (log.accepted request).asks = log.asks := by
  unfold Log.accepted
  split <;> rfl

@[simp] theorem Log.accepted_mlts (log : Log n nb) (request : Request n) :
    (log.accepted request).mlts = log.mlts := by
  unfold Log.accepted
  split <;> rfl

@[simp] theorem Log.accepted_reports (log : Log n nb) (request : Request n) :
    (log.accepted request).reports = log.reports := by
  unfold Log.accepted
  split <;> rfl

@[simp] theorem Log.accepted_globalBefore (log : Log n nb) (request : Request n) :
    (log.accepted request).globalBefore = log.globalBefore := by
  unfold Log.accepted
  split <;> rfl

@[simp] theorem Log.answered_asks (log : Log n nb) (request : Request n)
    (reply : Reply n nb) : (log.answered request reply).asks = log.asks := by
  unfold Log.answered
  split <;> rfl

@[simp] theorem Log.answered_mlts (log : Log n nb) (request : Request n)
    (reply : Reply n nb) : (log.answered request reply).mlts = log.mlts := by
  unfold Log.answered
  split <;> rfl

@[simp] theorem Log.answered_reports (log : Log n nb) (request : Request n)
    (reply : Reply n nb) : (log.answered request reply).reports = log.reports := by
  unfold Log.answered
  split <;> rfl

@[simp] theorem Log.answered_globalBefore (log : Log n nb) (request : Request n)
    (reply : Reply n nb) :
    (log.answered request reply).globalBefore = log.globalBefore := by
  unfold Log.answered
  split <;> rfl

/-! ## The cases -/

section Step

variable [Eacl A n] [DecidableEq C]

/-- The packet that carries the manager's table. -/
def mltPacket (mgr : Manager.State n nb) : MltPacket n nb where
  idSrv := mgr.table.idSrv
  nVer := mgr.table.nVer
  meanLoad := mgr.meanLoad

/-- The reply to a request after its storage operation. -/
def replyOf (request : Request n) (head : List Key) (done : Bool)
    (getValue : Option Data) : Reply n nb :=
  if done && (Server.distributionPreSend head request done).2 then .done getValue
  else .aborted

inductive Step (hash : Key → Fin n) (x : State n nb A C) :
    Label nb C → State n nb A C → Prop
  | usrHandler2 : Step hash x .usrHandler2 (x.setMgr (Manager.usrHandler2 x.mgr))
  | manager (mgr : Manager.State n nb) (h : Manager.LocalStep x.mgr mgr) :
      Step hash x .manager (x.setMgr mgr)
  | recvHelp (s : Fin nb) (epoch : Nat) (push : List (ToManager n nb))
      (hp : x.mgr.point = .recv) (hpush : (x.srv s).push = .help epoch :: push) :
      Step hash x (.managerRecv s)
        ((x.setMgr { x.mgr with point := .checkEpoch epoch }).setSrv s
          { x.srv s with push := push })
  | discardEacl (s id : Fin nb) (sai : Fin n → Nat) (loadLvl : Nat)
      (push : List (ToManager n nb)) (hp : x.mgr.point = .recv)
      (hpush : (x.srv s).push = .eacl id sai loadLvl :: push) :
      Step hash x (.managerRecv s) (x.setSrv s { x.srv s with push := push })
  | discardHelp (s : Fin nb) (epoch nbRcv : Nat) (push : List (ToManager n nb))
      (hp : x.mgr.point = .collect nbRcv) (hrcv : nbRcv < nb)
      (hpush : (x.srv s).push = .help epoch :: push) :
      Step hash x (.managerRecv s) (x.setSrv s { x.srv s with push := push })
  | recvEacl (s id : Fin nb) (sai : Fin n → Nat) (loadLvl nbRcv : Nat)
      (push : List (ToManager n nb)) (hp : x.mgr.point = .collect nbRcv)
      (hrcv : nbRcv < nb) (hpush : (x.srv s).push = .eacl id sai loadLvl :: push) :
      Step hash x (.managerRecv s)
        (((x.setMgr
          { x.mgr with
            globalList := Manager.managerMergeEacl x.mgr.globalList sai
            allList := Function.update x.mgr.allList id loadLvl
            point := .collect (nbRcv + 1) }).setSrv s
          { x.srv s with push := push }).setLog
          { x.log with
            reports := x.log.reports ++
              [{ id := id, sai := sai, loadLvl := loadLvl }] })
  | sendAsk (epoch : Nat) (hp : x.mgr.point = .sendAsk epoch) :
      Step hash x .managerSend
        (((x.setMgr { x.mgr with point := .collect 0 }).publish (.ask epoch)).setLog
          { x.log with
            asks := x.log.asks ++ [epoch]
            reports := []
            globalBefore := x.mgr.globalList })
  | sendMlt (hp : x.mgr.point = .sendMlt) :
      Step hash x .managerSend
        (((x.setMgr { x.mgr with point := .setProcessed }).publish
          (.mlt (mltPacket x.mgr))).setLog
          { x.log with mlts := x.log.mlts ++ [mltPacket x.mgr] })
  | server (s : Fin nb) (l : Server.Label) (srv : Server.State n nb A C)
      (h : Server.Step s (x.srv s) l srv) : Step hash x (.server s l) (x.setSrv s srv)
  | takePacket (w s : Fin nb) (sender : Server.LoadSender n nb) (left : Nat)
      (packet : Server.Packet n)
      (hw : (x.srv w).listener = .transfer sender (.recv (left + 1)))
      (hwire : (x.srv s).wire = some (w, packet)) :
      Step hash x (.takePacket w s)
        ((x.setSrv s { x.srv s with wire := none }).setSrv w
          { (x.setSrv s { x.srv s with wire := none }).srv w with
            listener := .transfer sender (.unpack s packet.entry packet.names left) })
  | replyPacket (w source : Fin nb) (sender : Server.LoadSender n nb) (entry : Fin n)
      (left : Nat) (hw : (x.srv w).listener = .transfer sender (.reply source entry left)) :
      Step hash x (.replyPacket w)
        ((x.setSrv source { x.srv source with ack := true }).setSrv w
          { (x.setSrv source { x.srv source with ack := true }).srv w with
            listener := .transfer sender (.recv left) })
  | accept (s : Fin nb) (c : C) (request : Request n)
      (hc : (x.client c).point = .sent s request) (hmain : (x.srv s).main = .recv)
      (haccept : Server.distributionPostReceive (x.srv s).table request = .accepted) :
      Step hash x (.mainRecv s c)
        (((x.setSrv s { x.srv s with main := .incrAccess c request }).setClient c
          { x.client c with point := .served }).setLog (x.log.accepted request))
  | refuse (s : Fin nb) (c : C) (request : Request n) (reply : Reply n nb)
      (hc : (x.client c).point = .sent s request) (hmain : (x.srv s).main = .recv)
      (hrefuse : Server.distributionPostReceive (x.srv s).table request =
        .refused reply) :
      Step hash x (.mainRecv s c) (x.setClient c { x.client c with point := .replied reply })
  | answer (s : Fin nb) (c : C) (request : Request n) (done : Bool)
      (getValue : Option Data)
      (hmain : (x.srv s).main = .preSend c request done getValue) :
      Step hash x (.mainReply s)
        (((x.setSrv s
          { x.srv s with
            inChargeMd := Function.update (x.srv s).inChargeMd request.index
              (Server.distributionPreSend ((x.srv s).inChargeMd request.index)
                request done).1
            main := .recv }).setClient c
          { x.client c with
            point := .replied
              (replyOf request ((x.srv s).inChargeMd request.index) done getValue) }).setLog
          (x.log.answered request
            (replyOf request ((x.srv s).inChargeMd request.index) done getValue :
              Reply n nb)))
  | clientSend (c : C) (key : Key) (reqType : ReqType) (hc : (x.client c).point = .idle) :
      Step hash x (.clientSend c key reqType) (x.setClient c
        { x.client c with
          point := .sent ((x.client c).table.idSrv (hash key))
            { key := key
              reqType := reqType
              index := hash key
              entryVersion := (x.client c).table.nVer (hash key) } })
  | clientRecv (c : C) (reply : Reply n nb) (hc : (x.client c).point = .replied reply) :
      Step hash x (.clientRecv c) (x.setClient c
        { table := Client.distributionPostReceive (x.client c).table reply
          point := .idle })

private theorem step_of_managerRecv {hash : Key → Fin n} {x y : State n nb A C}
    {s : Fin nb} (h : step hash (.managerRecv s) x = some y) :
    Step hash x (.managerRecv s) y := by
  rw [step] at h
  split at h
  · cases h
  · rename_i packet push hpush
    unfold Manager.recvStep at h
    cases hp : x.mgr.point with
    | recv =>
        rw [hp] at h
        cases packet with
        | help epoch =>
            cases h
            exact Step.recvHelp s epoch push hp hpush
        | eacl id sai loadLvl =>
            cases h
            exact Step.discardEacl s id sai loadLvl push hp hpush
    | collect nbRcv =>
        rw [hp] at h
        by_cases hrcv : nbRcv < nb
        · simp only [if_pos hrcv] at h
          cases packet with
          | help epoch =>
              cases h
              exact Step.discardHelp s epoch nbRcv push hp hrcv hpush
          | eacl id sai loadLvl =>
              cases h
              exact Step.recvEacl s id sai loadLvl nbRcv push hp hrcv hpush
        · simp [hrcv] at h
    | _ => simp [hp] at h

private theorem step_of_managerSend {hash : Key → Fin n} {x y : State n nb A C}
    (h : step hash .managerSend x = some y) : Step hash x .managerSend y := by
  rw [step] at h
  unfold Manager.sendStep at h
  cases hp : x.mgr.point with
  | sendAsk epoch =>
      rw [hp] at h
      cases h
      exact Step.sendAsk epoch hp
  | sendMlt =>
      rw [hp] at h
      cases h
      exact Step.sendMlt hp
  | _ => simp [hp] at h

private theorem step_of_mainRecv {hash : Key → Fin n} {x y : State n nb A C}
    {s : Fin nb} {c : C} (h : mainRecv x s c = some y) : Step hash x (.mainRecv s c) y := by
  unfold mainRecv at h
  split at h
  · rename_i idSrv request hc
    split at h
    · rename_i hs
      subst hs
      unfold Server.mainRecv at h
      cases hmain : (x.srv idSrv).main with
      | recv =>
          rw [hmain] at h
          cases hverdict : Server.distributionPostReceive (x.srv idSrv).table request with
          | accepted =>
              simp only [hverdict] at h
              cases h
              exact Step.accept idSrv c request hc hmain hverdict
          | refused reply =>
              simp only [hverdict] at h
              cases h
              exact Step.refuse idSrv c request reply hc hmain hverdict
      | _ => simp [hmain] at h
    · cases h
  · cases h

private theorem step_of_mainReply {hash : Key → Fin n} {x y : State n nb A C}
    {s : Fin nb} (h : mainReply x s = some y) : Step hash x (.mainReply s) y := by
  unfold mainReply at h
  cases hmain : (x.srv s).main with
  | preSend c request done getValue =>
      simp only [Server.mainReply, hmain] at h
      cases h
      exact Step.answer s c request done getValue hmain
  | _ => simp [hmain] at h

/-- `Step` covers every step of the system. -/
theorem step_cases {hash : Key → Fin n} {l : Label nb C} {x y : State n nb A C}
    (h : step hash l x = some y) : Step hash x l y := by
  cases l with
  | usrHandler2 =>
      cases h
      exact Step.usrHandler2
  | manager =>
      rw [step, Option.map_eq_some_iff] at h
      obtain ⟨mgr, hmgr, heq⟩ := h
      rw [← heq]
      exact Step.manager mgr (Manager.localStep_cases hmgr)
  | managerRecv s => exact step_of_managerRecv h
  | managerSend => exact step_of_managerSend h
  | server s l =>
      rw [step, Option.map_eq_some_iff] at h
      obtain ⟨srv, hsrv, heq⟩ := h
      rw [← heq]
      exact Step.server s l srv (Server.step_cases hsrv)
  | takePacket w s =>
      change takePacket x w s = some y at h
      unfold takePacket at h
      split at h
      · rename_i sender left server packet hw hwire
        split at h
        · obtain ⟨rfl, _⟩ := ‹_ ∧ _›
          cases h
          exact Step.takePacket server s sender left packet hw hwire
        · cases h
      · cases h
  | replyPacket w =>
      change replyPacket x w = some y at h
      unfold replyPacket at h
      split at h
      · split at h
        · cases h
          exact Step.replyPacket w _ _ _ _ ‹_›
        · cases h
      · cases h
  | mainRecv s c => exact step_of_mainRecv h
  | mainReply s => exact step_of_mainReply h
  | clientSend c key reqType =>
      rw [step, Option.map_eq_some_iff] at h
      obtain ⟨client, hclient, heq⟩ := h
      unfold Client.sendRequest at hclient
      split at hclient
      · cases hclient
        rw [← heq]
        exact Step.clientSend c key reqType ‹_›
      · cases hclient
  | clientRecv c =>
      rw [step, Option.map_eq_some_iff] at h
      obtain ⟨client, hclient, heq⟩ := h
      unfold Client.recvReply at hclient
      split at hclient
      · cases hclient
        rw [← heq]
        exact Step.clientRecv c _ ‹_›
      · cases hclient

/-! ## One server at a time -/

/-- What the other parties do to a server. -/
inductive External (srv : Server.State n nb A C) : Server.State n nb A C → Prop
  | push (packet : ToManager n nb) (push : List (ToManager n nb))
      (hpush : srv.push = packet :: push) : External srv { srv with push := push }
  | wire : External srv { srv with wire := none }
  | take (sender : Server.LoadSender n nb) (source : Fin nb) (packet : Server.Packet n)
      (left : Nat) (hl : srv.listener = .transfer sender (.recv (left + 1))) :
      External srv
        { srv with
          listener := .transfer sender (.unpack source packet.entry packet.names left) }
  | ack : External srv { srv with ack := true }
  | reply (sender : Server.LoadSender n nb) (source : Fin nb) (entry : Fin n)
      (left : Nat) (hl : srv.listener = .transfer sender (.reply source entry left)) :
      External srv { srv with listener := .transfer sender (.recv left) }
  | accept (c : C) (request : Request n) (hmain : srv.main = .recv)
      (haccept : Server.distributionPostReceive srv.table request = .accepted) :
      External srv { srv with main := .incrAccess c request }
  | answer (c : C) (request : Request n) (done : Bool) (getValue : Option Data)
      (hmain : srv.main = .preSend c request done getValue) :
      External srv
        { srv with
          inChargeMd := Function.update srv.inChargeMd request.index
            (Server.distributionPreSend (srv.inChargeMd request.index) request done).1
          main := .recv }

omit [Eacl A n] [DecidableEq C] in
theorem forall_setSrv {P : Fin nb → Server.State n nb A C → Prop} {x : State n nb A C}
    (h : ∀ s, P s (x.srv s)) {s : Fin nb} {srv : Server.State n nb A C} (hs : P s srv) :
    ∀ w, P w ((x.setSrv s srv).srv w) := by
  intro w
  by_cases hw : w = s
  · subst hw
    simpa using hs
  · simpa [hw] using h w

omit [Eacl A n] [DecidableEq C] in
theorem listener_setSrv {x : State n nb A C} {s w : Fin nb} {srv : Server.State n nb A C}
    {listener : Server.Listener n nb} (hw : (x.srv w).listener = listener)
    (hsrv : srv.listener = (x.srv s).listener) :
    ((x.setSrv s srv).srv w).listener = listener := by
  by_cases hs : w = s
  · subst hs
    simpa [hsrv] using hw
  · simpa [hs] using hw

omit [Eacl A n] in
theorem forall_setClient {P : C → Client.State n nb → Prop} {x : State n nb A C}
    (h : ∀ c, P c (x.client c)) {c : C} {client : Client.State n nb} (hc : P c client) :
    ∀ d, P d ((x.setClient c client).client d) := by
  intro d
  by_cases hd : d = c
  · subst hd
    simpa using hc
  · simpa [hd] using h d

/-- What a step that sends nothing to the servers does to them, for a property of
every server. -/
theorem Step.servers_of_ne {hash : Key → Fin n} {x y : State n nb A C}
    {P : Fin nb → Server.State n nb A C → Prop} {l : Label nb C} (h : Step hash x l y)
    (hl : l ≠ .managerSend) (inv : ∀ s, P s (x.srv s))
    (hserver : ∀ s l' srv, l = .server s l' → Server.Step s (x.srv s) l' srv → P s srv)
    (hexternal : ∀ s srv srv', External srv srv' → P s srv → P s srv') :
    ∀ s, P s (y.srv s) := by
  cases h with
  | usrHandler2 => exact inv
  | manager mgr h => exact inv
  | recvHelp s epoch push hp hpush =>
      exact forall_setSrv inv (hexternal s _ _ (External.push _ push hpush) (inv s))
  | discardEacl s id sai loadLvl push hp hpush =>
      exact forall_setSrv inv (hexternal s _ _ (External.push _ push hpush) (inv s))
  | discardHelp s epoch nbRcv push hp hrcv hpush =>
      exact forall_setSrv inv (hexternal s _ _ (External.push _ push hpush) (inv s))
  | recvEacl s id sai loadLvl nbRcv push hp hrcv hpush =>
      exact forall_setSrv inv (hexternal s _ _ (External.push _ push hpush) (inv s))
  | sendAsk epoch hp => exact absurd rfl hl
  | sendMlt hp => exact absurd rfl hl
  | server s l srv h => exact forall_setSrv inv (hserver s l srv rfl h)
  | takePacket w s sender left packet hw hwire =>
      have htaken := forall_setSrv inv (hexternal s _ _ External.wire (inv s))
      apply forall_setSrv htaken
      apply hexternal w _ _ _ (htaken w)
      apply External.take
      exact listener_setSrv hw rfl
  | replyPacket w source sender entry left hw =>
      have hacked := forall_setSrv inv (hexternal source _ _ External.ack (inv source))
      apply forall_setSrv hacked
      apply hexternal w _ _ _ (hacked w)
      apply External.reply sender source entry
      exact listener_setSrv hw rfl
  | accept s c request hc hmain haccept =>
      exact forall_setSrv inv
        (hexternal s _ _ (External.accept c request hmain haccept) (inv s))
  | refuse s c request reply hc hmain hrefuse => exact inv
  | answer s c request done getValue hmain =>
      exact forall_setSrv inv
        (hexternal s _ _ (External.answer c request done getValue hmain) (inv s))
  | clientSend c key reqType hc => exact inv
  | clientRecv c reply hc => exact inv

/-- What a step does to the servers, for a property of every server. -/
theorem Step.servers {hash : Key → Fin n} {x y : State n nb A C}
    {P : List (MltPacket n nb) → Fin nb → Server.State n nb A C → Prop}
    {l : Label nb C} (h : Step hash x l y)
    (inv : ∀ s, P x.log.mlts s (x.srv s))
    (hserver : ∀ s l srv, Server.Step s (x.srv s) l srv → P x.log.mlts s srv)
    (hexternal : ∀ s srv srv', External srv srv' → P x.log.mlts s srv →
      P x.log.mlts s srv')
    (hask : ∀ s epoch, P x.log.mlts s
      { x.srv s with sub := (x.srv s).sub ++ [.ask epoch] })
    (hmlt : ∀ s, P (x.log.mlts ++ [mltPacket x.mgr]) s
      { x.srv s with sub := (x.srv s).sub ++ [.mlt (mltPacket x.mgr)] }) :
    ∀ s, P y.log.mlts s (y.srv s) := by
  have h' := h
  have hserver' := fun s l' srv (_ : l = .server s l') => hserver s l' srv
  cases h with
  | sendAsk epoch hp => exact fun s => hask s epoch
  | sendMlt hp => exact hmlt
  | accept s c request hc hmain haccept =>
      rw [setLog_log, Log.accepted_mlts]
      exact h'.servers_of_ne (fun hl => by cases hl) inv hserver' hexternal
  | answer s c request done getValue hmain =>
      rw [setLog_log, Log.answered_mlts]
      exact h'.servers_of_ne (fun hl => by cases hl) inv hserver' hexternal
  | _ => exact h'.servers_of_ne (fun hl => by cases hl) inv hserver' hexternal

/-! ## Steps of requests -/

/-- The step is one of a client, or one of a main loop with a client. -/
def ofRequest : Label nb C → Bool
  | .mainRecv _ _ => true
  | .mainReply _ => true
  | .clientSend _ _ _ => true
  | .clientRecv _ => true
  | _ => false

/-- What a request changes in a server is its main loop and its lists of names. -/
structure SameRounds (x y : State n nb A C) : Prop where
  mgr : y.mgr = x.mgr
  asks : y.log.asks = x.log.asks
  mlts : y.log.mlts = x.log.mlts
  reports : y.log.reports = x.log.reports
  globalBefore : y.log.globalBefore = x.log.globalBefore
  srv : ∀ s, ∃ main inChargeMd,
    y.srv s = { x.srv s with
      main := main
      inChargeMd := inChargeMd }

theorem Step.sameRounds {hash : Key → Fin n} {x y : State n nb A C} {l : Label nb C}
    (h : Step hash x l y) (hl : ofRequest l = true) : SameRounds x y := by
  have hsame : ∀ s, ∃ main inChargeMd,
      x.srv s = { x.srv s with
        main := main
        inChargeMd := inChargeMd } := fun s => ⟨_, _, rfl⟩
  cases h with
  | accept s c request hc hmain haccept =>
      exact
        { mgr := rfl
          asks := Log.accepted_asks _ _
          mlts := Log.accepted_mlts _ _
          reports := Log.accepted_reports _ _
          globalBefore := Log.accepted_globalBefore _ _
          srv := fun w => by
            by_cases hw : w = s
            · subst hw
              exact ⟨_, _, Function.update_self _ _ _⟩
            · rw [show (((x.setSrv s _).setClient c _).setLog _).srv w = x.srv w from
                Function.update_of_ne hw _ _]
              exact hsame w }
  | refuse s c request reply hc hmain hrefuse => exact ⟨rfl, rfl, rfl, rfl, rfl, hsame⟩
  | answer s c request done getValue hmain =>
      exact
        { mgr := rfl
          asks := Log.answered_asks _ _ _
          mlts := Log.answered_mlts _ _ _
          reports := Log.answered_reports _ _ _
          globalBefore := Log.answered_globalBefore _ _ _
          srv := fun w => by
            by_cases hw : w = s
            · subst hw
              exact ⟨_, _, Function.update_self _ _ _⟩
            · rw [show (((x.setSrv s _).setClient c _).setLog _).srv w = x.srv w from
                Function.update_of_ne hw _ _]
              exact hsame w }
  | clientSend c key reqType hc => exact ⟨rfl, rfl, rfl, rfl, rfl, hsame⟩
  | clientRecv c reply hc => exact ⟨rfl, rfl, rfl, rfl, rfl, hsame⟩
  | _ => cases hl

/-! ## Runs -/

variable [NeZero nb]

/-- The states of all runs. -/
def Reachable (hash : Key → Fin n) (x : State n nb A C) : Prop :=
  Reach (init n nb A C) (Steps (step hash)) x

/-- What holds at the start and is kept by every step holds in every run. -/
theorem Reachable.invariant {hash : Key → Fin n} {I : State n nb A C → Prop}
    (hinit : I (init n nb A C))
    (hstep : ∀ x l y, Reachable hash x → I x → Step hash x l y → I y)
    {x : State n nb A C} (h : Reachable hash x) : I x := by
  apply Reach.invariant hinit _ h
  intro x y hx inv hxy
  obtain ⟨l, hl⟩ := hxy
  exact hstep x l y hx inv (step_cases hl)

end Step

end MeDiE.System
