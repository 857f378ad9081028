import MeDiE.Eacl.Indedh
import MeDiE.System.History

/-!
# Version numbers and owners

A server compares only the version number of a request with its table, never the
owner with itself.  That is enough: every row of every table, and every row that
is under way in a message, a request or a reply, is a row of a table that the
manager has sent out, and there the version identifies the owner.
-/

namespace MeDiE.System

open MeDiE.Storage
open MeDiE.Table
open MeDiE.Verified

variable {n nb : Nat} {A C : Type} [NeZero nb]

/-- Some table sent out has this row for the entry. -/
def Issued (mlts : List (MltPacket n nb)) (e : Fin n) (ver : Nat) (srv : Fin nb) : Prop :=
  ∃ m ∈ initPacket n nb :: mlts, m.nVer e = ver ∧ m.idSrv e = srv

/-- Everything that holds a row has got it from a table that was sent out. -/
structure IssuedInv (x : State n nb A C) : Prop where
  sub : ∀ s m, .mlt m ∈ (x.srv s).sub → m ∈ x.log.mlts
  temp : ∀ s m i plan, (x.srv s).listener = .updateMlt m i plan → m ∈ x.log.mlts
  server : ∀ s e, Issued x.log.mlts e ((x.srv s).table.nVer e) ((x.srv s).table.idSrv e)
  client : ∀ c e, Issued x.log.mlts e ((x.client c).table.nVer e)
    ((x.client c).table.idSrv e)
  request : ∀ c s request, (x.client c).point = .sent s request →
    Issued x.log.mlts request.index request.entryVersion s
  reply : ∀ c e srv ver, (x.client c).point = .replied (.updateRetry e srv ver) →
    Issued x.log.mlts e ver srv

theorem Issued.append {mlts : List (MltPacket n nb)} {e : Fin n} {ver : Nat}
    {srv : Fin nb} (h : Issued mlts e ver srv) (m : MltPacket n nb) :
    Issued (mlts ++ [m]) e ver srv := by
  obtain ⟨m', hm', h⟩ := h
  exact ⟨m', List.mem_append_left [m] hm', h⟩

/-- The version tells the owner. -/
theorem Issued.unique {mgr : Manager.State n nb} {mlts : List (MltPacket n nb)}
    (inv : HistoryInv mgr mlts) {e : Fin n} {ver : Nat} {srv srv' : Fin nb}
    (h : Issued mlts e ver srv) (h' : Issued mlts e ver srv') : srv = srv' := by
  obtain ⟨m, hm, hver, hsrv⟩ := h
  obtain ⟨m', hm', hver', hsrv'⟩ := h'
  rw [← hsrv, ← hsrv']
  exact Versions.owner_eq inv.chain hm hm' (by rw [hver, hver'])

/-! ## Where rows come from -/

variable [Eacl A n]

theorem issuedInv_init : IssuedInv (init n nb A C) where
  sub := fun _ _ h => by cases h
  temp := fun _ _ _ _ h => by cases h
  server := fun _ _ => ⟨initPacket n nb, by simp, rfl, rfl⟩
  client := fun _ _ => ⟨initPacket n nb, by simp, rfl, rfl⟩
  request := fun _ _ _ h => by cases h
  reply := fun _ _ _ _ h => by cases h

omit [Eacl A n] in
/-- A server whose table and messages come from the manager may be put in. -/
theorem IssuedInv.setSrv {x : State n nb A C} (inv : IssuedInv x) (s : Fin nb)
    (srv : Server.State n nb A C)
    (hsub : ∀ m, .mlt m ∈ srv.sub → m ∈ x.log.mlts)
    (htemp : ∀ m i plan, srv.listener = .updateMlt m i plan → m ∈ x.log.mlts)
    (htable : ∀ e, Issued x.log.mlts e (srv.table.nVer e) (srv.table.idSrv e)) :
    IssuedInv (x.setSrv s srv) := by
  constructor
  · intro w m h
    by_cases hw : w = s
    · subst hw
      exact hsub m (by simpa using h)
    · exact inv.sub w m (by simpa [hw] using h)
  · intro w m i plan h
    by_cases hw : w = s
    · subst hw
      exact htemp m i plan (by simpa using h)
    · exact inv.temp w m i plan (by simpa [hw] using h)
  · intro w e
    by_cases hw : w = s
    · subst hw
      simpa using htable e
    · simpa [hw] using inv.server w e
  · exact inv.client
  · exact inv.request
  · exact inv.reply

omit [Eacl A n] in
/-- A client whose table, request or reply comes from the manager may be put in. -/
theorem IssuedInv.setClient [DecidableEq C] {x : State n nb A C} (inv : IssuedInv x) (c : C)
    (client : Client.State n nb)
    (htable : ∀ e, Issued x.log.mlts e (client.table.nVer e) (client.table.idSrv e))
    (hrequest : ∀ s request, client.point = .sent s request →
      Issued x.log.mlts request.index request.entryVersion s)
    (hreply : ∀ e srv ver, client.point = .replied (.updateRetry e srv ver) →
      Issued x.log.mlts e ver srv) :
    IssuedInv (x.setClient c client) := by
  constructor
  · exact inv.sub
  · exact inv.temp
  · exact inv.server
  · intro d e
    by_cases hd : d = c
    · subst hd
      simpa using htable e
    · simpa [hd] using inv.client d e
  · intro d s request h
    by_cases hd : d = c
    · subst hd
      exact hrequest s request (by simpa using h)
    · exact inv.request d s request (by simpa [hd] using h)
  · intro d e srv ver h
    by_cases hd : d = c
    · subst hd
      exact hreply e srv ver (by simpa using h)
    · exact inv.reply d e srv ver (by simpa [hd] using h)

omit [Eacl A n] in
/-- A step that keeps the tables sent out. -/
theorem IssuedInv.setLog {x : State n nb A C} (inv : IssuedInv x) {log : Log n nb}
    (hmlts : log.mlts = x.log.mlts) : IssuedInv (x.setLog log) := by
  constructor
  all_goals
    rw [setLog_log, hmlts]
  · exact inv.sub
  · exact inv.temp
  · exact inv.server
  · exact inv.client
  · exact inv.request
  · exact inv.reply

omit [Eacl A n] in
theorem issued_updateRow {mlts : List (MltPacket n nb)} {s : Fin nb}
    {table : Mlt n (Fin nb)} {m : MltPacket n nb} (i : Fin n) (plan : Plan n nb)
    (htable : ∀ e, Issued mlts e (table.nVer e) (table.idSrv e)) (hm : m ∈ mlts)
    (e : Fin n) :
    Issued mlts e ((Server.updateRow s m i table plan).1.nVer e)
      ((Server.updateRow s m i table plan).1.idSrv e) := by
  have hnew : Issued mlts i (m.nVer i) (m.idSrv i) :=
    ⟨m, List.mem_cons_of_mem _ hm, rfl, rfl⟩
  unfold Server.updateRow
  by_cases he : e = i
  · subst he
    split
    · split
      · simpa using hnew
      · split <;> simpa using hnew
    · exact htable e
  · split
    · split
      · simpa [he] using htable e
      · split <;> simpa [he] using htable e
    · exact htable e

theorem IssuedInv.server_step {x : State n nb A C} (inv : IssuedInv x) {s : Fin nb}
    {srv : Server.State n nb A C} {l : Server.Label} (h : Server.Step s (x.srv s) l srv) :
    IssuedInv (x.setSrv s srv) := by
  have hsub := inv.sub s
  have htemp := inv.temp s
  have hserver := inv.server s
  cases h with
  | recvAsk epochNeeded sub hl hrest =>
      apply inv.setSrv
      · intro m hm
        exact hsub m (by rw [hrest]; exact List.mem_cons_of_mem _ hm)
      · intro m i plan hm
        cases hm
      · exact hserver
  | recvMlt tempMlt sub hl hrest =>
      apply inv.setSrv
      · intro m hm
        exact hsub m (by rw [hrest]; exact List.mem_cons_of_mem _ hm)
      · intro m i plan hm
        cases hm
        exact hsub tempMlt (by rw [hrest]; exact List.mem_cons_self)
      · exact hserver
  | updateRow tempMlt i plan hl =>
      have hmem : tempMlt ∈ x.log.mlts := htemp _ _ _ hl
      apply inv.setSrv
      · exact hsub
      · intro m j plan' hm
        cases hm
        exact hmem
      · exact issued_updateRow i plan hserver hmem
  | _ =>
      apply inv.setSrv
      · exact hsub
      · first
          | exact htemp
          | intro m i plan hm
            cases hm
      · exact hserver

omit [Eacl A n] in
/-- The manager moves and the servers' tables and messages stay. -/
theorem IssuedInv.setMgr {x : State n nb A C} (inv : IssuedInv x)
    (mgr : Manager.State n nb) : IssuedInv (x.setMgr mgr) :=
  ⟨inv.sub, inv.temp, inv.server, inv.client, inv.request, inv.reply⟩

omit [Eacl A n] in
/-- A step that leaves the table, the listener and the messages of a server. -/
theorem IssuedInv.setSrv_of_eq {x : State n nb A C} (inv : IssuedInv x) {s : Fin nb}
    {srv : Server.State n nb A C} (hsub : srv.sub = (x.srv s).sub)
    (hlistener : srv.listener = (x.srv s).listener)
    (htable : srv.table = (x.srv s).table) : IssuedInv (x.setSrv s srv) := by
  apply inv.setSrv
  · rw [hsub]
    exact inv.sub s
  · rw [hlistener]
    exact inv.temp s
  · rw [htable]
    exact inv.server s

omit [Eacl A n] in
/-- The manager sends a message. -/
theorem IssuedInv.publish {x : State n nb A C} (inv : IssuedInv x)
    (packet : FromManager n nb) (log : Log n nb)
    (hmlts : ∀ m ∈ x.log.mlts, m ∈ log.mlts) (hpacket : ∀ m, packet = .mlt m → m ∈ log.mlts)
    (hissued : ∀ e ver srv, Issued x.log.mlts e ver srv → Issued log.mlts e ver srv) :
    IssuedInv ((x.publish packet).setLog log) := by
  constructor
  · intro s m h
    have hor : .mlt m ∈ (x.srv s).sub ∨ packet = .mlt m := by
      simpa [eq_comm] using h
    cases hor with
    | inl hold => exact hmlts m (inv.sub s m hold)
    | inr hnew => exact hpacket m hnew
  · intro s m i plan h
    exact hmlts m (inv.temp s m i plan h)
  · exact fun s e => hissued _ _ _ (inv.server s e)
  · exact fun c e => hissued _ _ _ (inv.client c e)
  · exact fun c s request h => hissued _ _ _ (inv.request c s request h)
  · exact fun c e srv ver h => hissued _ _ _ (inv.reply c e srv ver h)

omit [NeZero nb] in
/-- A refusal carries the row of the server. -/
theorem refused_row {table : Mlt n (Fin nb)} {request : Request n} {e : Fin n}
    {srv : Fin nb} {ver : Nat}
    (h : Server.distributionPostReceive table request =
      .refused (.updateRetry e srv ver)) :
    ver = table.nVer e ∧ srv = table.idSrv e := by
  unfold Server.distributionPostReceive at h
  split at h
  · cases h
  · split at h
    · cases h
      exact ⟨rfl, rfl⟩
    · cases h

theorem IssuedInv.step [DecidableEq C] {hash : Key → Fin n} {x y : State n nb A C}
    {l : Label nb C} (inv : IssuedInv x) (h : Step hash x l y) : IssuedInv y := by
  cases h with
  | usrHandler2 => exact inv.setMgr _
  | manager mgr h => exact inv.setMgr _
  | recvHelp s epoch push hp hpush =>
      exact (inv.setMgr _).setSrv_of_eq rfl rfl rfl
  | discardEacl s id sai loadLvl push hp hpush => exact inv.setSrv_of_eq rfl rfl rfl
  | discardHelp s epoch nbRcv push hp hrcv hpush => exact inv.setSrv_of_eq rfl rfl rfl
  | recvEacl s id sai loadLvl nbRcv push hp hrcv hpush =>
      apply IssuedInv.setLog
      · exact (inv.setMgr _).setSrv_of_eq rfl rfl rfl
      · rfl
  | sendAsk epoch hp =>
      apply (inv.setMgr _).publish
      · exact fun _ hm => hm
      · intro m hm
        cases hm
      · exact fun _ _ _ h => h
  | sendMlt hp =>
      apply (inv.setMgr _).publish
      · exact fun _ hm => List.mem_append_left _ hm
      · intro m hm
        cases hm
        simp
      · exact fun _ _ _ h => h.append _
  | server s l srv h => exact inv.server_step h
  | takePacket w s sender left packet hw hwire =>
      have htaken : IssuedInv (x.setSrv s { x.srv s with wire := none }) :=
        inv.setSrv_of_eq rfl rfl rfl
      apply htaken.setSrv
      · exact htaken.sub w
      · intro m i plan hm
        cases hm
      · exact htaken.server w
  | replyPacket w source sender entry left hw =>
      have hacked : IssuedInv (x.setSrv source { x.srv source with ack := true }) :=
        inv.setSrv_of_eq rfl rfl rfl
      apply hacked.setSrv
      · exact hacked.sub w
      · intro m i plan hm
        cases hm
      · exact hacked.server w
  | accept s c request hc hmain haccept =>
      apply IssuedInv.setLog
      · apply IssuedInv.setClient
        · exact inv.setSrv_of_eq rfl rfl rfl
        · exact inv.client c
        · intro s request h
          cases h
        · intro e srv ver h
          cases h
      · simp
  | refuse s c request reply hc hmain hrefuse =>
      apply inv.setClient
      · exact inv.client c
      · intro s request h
        cases h
      · intro e srv ver h
        cases h
        obtain ⟨hver, hsrv⟩ := refused_row hrefuse
        rw [hver, hsrv]
        exact inv.server s e
  | answer s c request done getValue hmain =>
      apply IssuedInv.setLog
      · apply IssuedInv.setClient
        · exact inv.setSrv_of_eq rfl rfl rfl
        · exact inv.client c
        · intro s request h
          cases h
        · intro e srv ver h
          unfold replyOf at h
          split at h <;> cases h
      · simp
  | clientSend c key reqType hc =>
      apply inv.setClient
      · exact inv.client c
      · intro s request h
        cases h
        exact inv.client c (hash key)
      · intro e srv ver h
        cases h
  | clientRecv c reply hc =>
      apply inv.setClient
      · intro e
        show Issued x.log.mlts e
          ((Client.distributionPostReceive (x.client c).table reply).nVer e)
          ((Client.distributionPostReceive (x.client c).table reply).idSrv e)
        cases reply with
        | updateRetry i srv ver =>
            simp only [Client.distributionPostReceive, Mlt.updateEntry_nVer,
              Mlt.updateEntry_idSrv]
            by_cases he : e = i
            · subst he
              simpa using inv.reply c e srv ver hc
            · simpa [he] using inv.client c e
        | done getValue => exact inv.client c e
        | aborted => exact inv.client c e
        | waitRetry => exact inv.client c e
      · intro s request h
        cases h
      · intro e srv ver h
        cases h

theorem issuedInv_of_reachable [DecidableEq C] {hash : Key → Fin n}
    {x : State n nb A C} (h : Reachable hash x) : IssuedInv x :=
  h.invariant issuedInv_init fun _ _ _ _ inv hstep => inv.step hstep

/-! ## The version identifies the owner -/

/-- A table that somebody holds. -/
inductive Holds (x : State n nb A C) : Mlt n (Fin nb) → Prop
  | manager : Holds x x.mgr.table
  | server (s : Fin nb) : Holds x (x.srv s).table
  | client (c : C) : Holds x (x.client c).table

omit [Eacl A n] in
/-- Every row held is the manager's or one that was sent out. -/
theorem Holds.row {x : State n nb A C} (hissued : IssuedInv x) {table : Mlt n (Fin nb)}
    (h : Holds x table) (e : Fin n) :
    Issued (x.log.mlts ++ [mltPacket x.mgr]) e (table.nVer e) (table.idSrv e) := by
  cases h with
  | manager => exact ⟨mltPacket x.mgr, by simp, rfl, rfl⟩
  | server s => exact (hissued.server s e).append _
  | client c => exact (hissued.client c e).append _

/-- Tables that hold the same version of an entry hold the same owner for it, and
a server accepts a routed request only at a version at which it is the owner. -/
theorem owner_of_version [DecidableEq C] {hash : Key → Fin n} {x : State n nb A C}
    (hx : Reachable hash x) :
    (∀ table table', Holds x table → Holds x table' →
      ∀ e, table.nVer e = table'.nVer e → table.idSrv e = table'.idSrv e) ∧
    (∀ s c request, (x.client c).point = .sent s request →
      Server.distributionPostReceive (x.srv s).table request = .accepted →
      (x.srv s).table.nVer request.index = request.entryVersion ∧
        (x.srv s).table.idSrv request.index = s) := by
  have hhistory := historyInv_of_reachable hx
  have hissued := issuedInv_of_reachable hx
  constructor
  · intro table table' h h' e heq
    have hrow := h.row hissued e
    rw [heq] at hrow
    exact hrow.unique (hhistory.sendMlt x.mgr.point) (h'.row hissued e)
  · intro s c request hc haccept
    have hver := (Server.distributionPostReceive_accepted.mp haccept).2
    have hrequest := hissued.request c s request hc
    rw [hver] at hrequest
    exact ⟨hver.symm, (hissued.server s request.index).unique hhistory hrequest⟩

end MeDiE.System
