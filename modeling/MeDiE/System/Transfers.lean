import MeDiE.System.Replicas
import MeDiE.System.Rounds
import MeDiE.Verified.Handover

/-!
# Transfers between the servers

What the servers do with the tables is a hand-over in the sense of
`Verified.Handover`, as long as no transfer breaks off.  Draining and unpacking a
packet is no step there; the rounds see to it that a table is published only when
every server has settled the last one.
-/

namespace MeDiE.Server

open MeDiE.System
open MeDiE.Verified

variable {n nb : Nat} {A C : Type}

/-- What a sender has left to do. -/
def sndOf : LoadSender n nb → Handover.Snd (Fin n)
  | .next toSend => .next (toSend.map Prod.snd)
  | .drain _ toSend packet => .next (packet.entry :: toSend.map Prod.snd)
  | .pop _ toSend packet => .next (packet.entry :: toSend.map Prod.snd)
  | .del _ toSend packet _ => .next (packet.entry :: toSend.map Prod.snd)
  | .send _ toSend packet => .next (packet.entry :: toSend.map Prod.snd)
  | .updateState entry toSend => .sent entry (toSend.map Prod.snd)
  | .resetEacl entry toSend => .cleared entry (toSend.map Prod.snd)
  | .recvAck entry toSend => .cleared entry (toSend.map Prod.snd)
  | .finished => .next []
  | .failed => .next []

/-- What a receiver has left to do. -/
def rcvOf : LoadReceiver n nb → Handover.Rcv (Fin nb) (Fin n)
  | .recv left => .recv left
  | .unpack source entry _ left => .unpack source entry left
  | .put source entry _ left => .unpack source entry left
  | .updateState source entry left => .unpack source entry left
  | .resetEacl source entry left => .reply source entry left
  | .reply source entry left => .reply source entry left
  | .finished => .recv 0
  | .failed => .recv 0

/-- The rows before `i`. -/
def rowsBefore (n i : Nat) : Set (Fin n) := fun e => (e : Nat) < i

/-- How far a server is with the last table; one on the socket has not been begun. -/
def phaseOf (listener : Listener n nb) (sub : List (FromManager n nb)) :
    Handover.Phase (Fin nb) (Fin n) :=
  match listener with
  | .updateMlt _ i _ => .applying (rowsBefore n i)
  | .transfer sender receiver => .moving (sndOf sender) (rcvOf receiver)
  | _ => if pendingMlts sub = [] then .settled else .applying ∅

/-- The entries with their new owners that a sender has not put on the wire. -/
def unsent : LoadSender n nb → List (Fin nb × Fin n)
  | .next toSend => toSend
  | .drain server toSend packet => (server, packet.entry) :: toSend
  | .pop server toSend packet => (server, packet.entry) :: toSend
  | .del server toSend packet _ => (server, packet.entry) :: toSend
  | .send server toSend packet => (server, packet.entry) :: toSend
  | .updateState _ toSend => toSend
  | .resetEacl _ toSend => toSend
  | .recvAck _ toSend => toSend
  | .finished => []
  | .failed => []

def toSendOf : Listener n nb → List (Fin nb × Fin n)
  | .transfer sender _ => unsent sender
  | _ => []

/-- A server, as the hand-over sees it. -/
def handoverOf (srv : State n nb A C) : Handover.Server (Fin nb) (Fin n) where
  phase := phaseOf srv.listener srv.sub
  own := srv.table.idSrv
  busy := srv.table.state
  wire := srv.wire.map (fun p => (p.1, p.2.entry))
  ack := srv.ack

/-- What the rounds and the history say of a server, when `prev` are the owners of
the table before the last one and `cur` those of the last one. -/
structure Latest (prev cur : Fin n → Fin nb) (s : Fin nb) (srv : State n nb A C) :
    Prop where
  row : ∀ m (i : Fin n) plan, srv.listener = .updateMlt m i plan →
    m.idSrv i = cur i ∧ srv.table.idSrv i = prev i ∧
      (srv.table.nVer i = m.nVer i ↔ prev i = cur i)
  plan : ∀ m i plan, srv.listener = .updateMlt m i plan → n ≤ i →
    (plan.toSend.map Prod.snd).Nodup ∧ (∀ p ∈ plan.toSend, p.1 = cur p.2) ∧
      (∀ e, e ∈ plan.toSend.map Prod.snd ↔ Handover.Lost prev cur s e) ∧
      plan.toReceive.length = Handover.gained prev cur s
  last : ∀ sender receiver, srv.listener = .transfer sender receiver →
    pendingMlts srv.sub = []

/-- No storage operation of a transfer fails: the sender deletes files that exist and
the receiver creates files that do not. -/
def Unbroken (srv : State n nb A C) : Label → Prop
  | .sender =>
      match srv.listener with
      | .transfer (.del _ _ _ mdName) _ => srv.store mdName ≠ none
      | _ => True
  | .receiver =>
      match srv.listener with
      | .transfer _ (.put _ entry _ _) =>
          ∀ mdName ∈ (srv.inChargeMd entry).head?, srv.store mdName = none
      | _ => True
  | _ => True

instance (srv : State n nb A C) (l : Label) : Decidable (Unbroken srv l) := by
  unfold Unbroken
  split
  · split <;> infer_instance
  · split <;> infer_instance
  · infer_instance

theorem settled_of_pending {srv : State n nb A C} (h : srv.pending = []) :
    (handoverOf srv).phase = .settled := by
  rw [State.pending, List.append_eq_nil_iff, List.map_eq_nil_iff] at h
  cases hl : srv.listener <;>
    simp_all [handling, handoverOf, phaseOf, pendingMlts]

/-- A table comes in that the server has not begun to take over. -/
theorem applying_of_pending {srv : State n nb A C} (h : srv.pending = [])
    (m : MltPacket n nb) :
    phaseOf srv.listener (srv.sub ++ [.mlt m]) = .applying ∅ ∧
      toSendOf srv.listener = [] := by
  rw [State.pending, List.append_eq_nil_iff, List.map_eq_nil_iff] at h
  cases hl : srv.listener <;>
    simp_all [handling, phaseOf, pendingMlts, toSendOf]

/-- As many commits are on a server's hands as tables, and the one it transfers
entries for. -/
theorem count_commit (srv : State n nb A C) :
    srv.pending.count .commit =
      (handling srv.listener).count .commit + (pendingMlts srv.sub).length := by
  rw [State.pending, List.count_append]
  congr 1
  induction srv.sub with
  | nil => rfl
  | cons packet sub ih => cases packet <;> simp [kind, pendingMlts, ih]

/-! ## The steps of a server -/

/-- The hand-over `h` goes on, or stays, so that server `s` is `srv`. -/
def Matched (h : Handover.State (Fin nb) (Fin n)) (s : Fin nb)
    (srv : Handover.Server (Fin nb) (Fin n)) : Prop :=
  ∃ h', (h' = h ∨ Handover.Step h h') ∧ h'.prev = h.prev ∧ h'.cur = h.cur ∧
    h'.srv = Function.update h.srv s srv

theorem Matched.stay {h : Handover.State (Fin nb) (Fin n)} {s : Fin nb}
    {srv : Handover.Server (Fin nb) (Fin n)} (hsrv : h.srv s = srv) : Matched h s srv :=
  ⟨h, Or.inl rfl, rfl, rfl, by rw [← hsrv, Function.update_eq_self]⟩

section Steps

variable [Eacl A n]

omit [Eacl A n] in
theorem rowsBefore_zero : rowsBefore n 0 = ∅ :=
  Set.eq_empty_of_forall_notMem fun e => Nat.not_lt_zero e

omit [Eacl A n] in
theorem rowsBefore_succ (i : Fin n) :
    rowsBefore n (i + 1) = insert i (rowsBefore n i) := by
  ext e
  show (e : Nat) < i + 1 ↔ e = i ∨ (e : Nat) < i
  rw [Fin.ext_iff]
  omega

omit [Eacl A n] in
/-- One row is taken over. -/
theorem handoverOf_updateRow {prev cur : Fin n → Fin nb} {s : Fin nb}
    {srv : State n nb A C} {m : MltPacket n nb} {i : Fin n} {plan : Plan n nb}
    (latest : Latest prev cur s srv) (hl : srv.listener = .updateMlt m i plan) :
    handoverOf { srv with
        table := (updateRow s m i srv.table plan).1
        listener := .updateMlt m (i + 1) (updateRow s m i srv.table plan).2 } =
      { Handover.applyRow prev cur s (handoverOf srv) i with
        phase := .applying (insert i (rowsBefore n i)) } := by
  obtain ⟨hnew, hold, hver⟩ := latest.row m i plan hl
  have hrow := updateRow_table s m i srv.table plan
  have hown : (updateRow s m i srv.table plan).1.idSrv =
      (Handover.applyRow prev cur s (handoverOf srv) i).own := by
    funext e
    rw [(hrow e).1, Handover.applyRow]
    by_cases heq : prev i = cur i
    · simp [heq, hver.mpr heq, handoverOf]
    · by_cases he : e = i
      · subst he
        simp [heq, mt hver.mp heq, hnew]
      · simp [heq, he, handoverOf]
  have hbusy : (updateRow s m i srv.table plan).1.state =
      (Handover.applyRow prev cur s (handoverOf srv) i).busy := by
    funext e
    rw [(hrow e).2.2, Handover.applyRow]
    by_cases heq : prev i = cur i
    · simp [heq, hver.mpr heq, handoverOf]
    · by_cases he : e = i
      · subst he
        simp [heq, mt hver.mp heq, hnew, hold, eq_comm]
      · simp [heq, he, handoverOf]
  have hrest : (Handover.applyRow prev cur s (handoverOf srv) i).wire =
        (handoverOf srv).wire ∧
      (Handover.applyRow prev cur s (handoverOf srv) i).ack = srv.ack := by
    unfold Handover.applyRow
    split <;> exact ⟨rfl, rfl⟩
  show Handover.Server.mk (.applying (rowsBefore n (i + 1)))
      (updateRow s m i srv.table plan).1.idSrv (updateRow s m i srv.table plan).1.state
      (handoverOf srv).wire srv.ack =
    Handover.Server.mk _ _ _ (Handover.applyRow prev cur s (handoverOf srv) i).wire
      (Handover.applyRow prev cur s (handoverOf srv) i).ack
  rw [hown, hbusy, rowsBefore_succ, hrest.1, hrest.2]

/-- Every step of a server is a step of the hand-over, or none. -/
theorem Step.matched {h : Handover.State (Fin nb) (Fin n)} {s : Fin nb}
    {srv srv' : State n nb A C} {l : Label} (latest : Latest h.prev h.cur s srv)
    (hsrv : h.srv s = handoverOf srv)
    (hdest : ∀ p ∈ toSendOf srv.listener, p.1 = h.cur p.2) (hgood : Unbroken srv l)
    (hstep : Step s srv l srv') : Matched h s (handoverOf srv') := by
  have hphase : (h.srv s).phase = phaseOf srv.listener srv.sub := by
    rw [hsrv]
    rfl
  cases hstep with
  | updateRow m i plan hl =>
      rw [hl] at hphase
      refine ⟨_, Or.inr (Handover.Step.apply (e := i) hphase), rfl, rfl, ?_⟩
      rw [handoverOf_updateRow latest hl, hsrv]
      rfl
  | launch m i plan toSend hl hi hsort =>
      rw [hl] at hphase
      have hperm := (sortToSend_perm hsort).map Prod.snd
      obtain ⟨hnodup, _, hlost, hleft⟩ := latest.plan m i plan hl hi
      have hall : ∀ e : Fin n, e ∈ rowsBefore n i :=
        fun e => e.isLt.trans_le hi
      have htodo : (toSend.map Prod.snd).Nodup := hperm.nodup_iff.mpr hnodup
      refine ⟨_, Or.inr (Handover.Step.launch hphase hall htodo
        (fun e => (hperm.mem_iff).trans (hlost e)) hleft), rfl, rfl, ?_⟩
      rw [hsrv]
      rfl
  | send server toSend packet receiver hl =>
      rw [hl] at hphase
      have hserver : server = h.cur packet.entry := by
        rw [hl] at hdest
        exact hdest (server, packet.entry) List.mem_cons_self
      refine ⟨_, Or.inr (Handover.Step.send hphase), rfl, rfl, ?_⟩
      rw [hsrv, hserver]
      rfl
  | sentState entry toSend receiver hl =>
      rw [hl] at hphase
      refine ⟨_, Or.inr (Handover.Step.clear hphase), rfl, rfl, ?_⟩
      rw [hsrv]
      rfl
  | recvAck entry toSend receiver hl hack =>
      rw [hl] at hphase
      have hack' : (h.srv s).ack = true := by
        rw [hsrv]
        exact hack
      refine ⟨_, Or.inr (Handover.Step.acked hphase hack'), rfl, rfl, ?_⟩
      rw [hsrv]
      rfl
  | receivedState sender source entry left hl =>
      rw [hl] at hphase
      refine ⟨_, Or.inr (Handover.Step.open hphase), rfl, rfl, ?_⟩
      rw [hsrv]
      rfl
  | join sender receiver hl hsender hreceiver =>
      rw [hl] at hphase
      have hsnd : sndOf sender = .next [] := by
        cases sender <;> first | rfl | cases hsender
      have hrcv : rcvOf receiver = .recv 0 := by
        cases receiver <;> first | rfl | cases hreceiver
      have hsettled : (h.srv s).phase = .moving (.next []) (.recv 0) := by
        rw [hphase, phaseOf, hsnd, hrcv]
      refine ⟨_, Or.inr (Handover.Step.settle hsettled), rfl, rfl, ?_⟩
      rw [hsrv]
      simp only [handoverOf, phaseOf, latest.last sender receiver hl, if_true]
      rfl
  | delFailed server toSend packet receiver mdName hl hstore =>
      simp only [Unbroken, hl] at hgood
      exact absurd hstore hgood
  | putFailed sender source entry mdNames left mdName head hl hhead hstore =>
      simp only [Unbroken, hl, hhead] at hgood
      exact absurd (hgood mdName rfl) hstore
  | recvMlt tempMlt sub hl hsub =>
      apply Matched.stay
      rw [hsrv]
      simp [handoverOf, phaseOf, pendingMlts, rowsBefore_zero, hl, hsub]
  | usr2 | calculateSai | setEaclEpoch | resetAccess | threshold | noRebalancing
  | askRebalancing | incrAccess | storage | crash => exact Matched.stay hsrv
  | _ =>
      apply Matched.stay
      rw [hsrv]
      simp [handoverOf, phaseOf, sndOf, rcvOf, pendingMlts, Packing.start, Packing.append, *]

/-- A step of a server other than the start of a transfer puts nothing on the list of
what is to be sent. -/
theorem Step.toSend {s : Fin nb} {srv srv' : State n nb A C} {l : Label}
    (hstep : Step s srv l srv') :
    (∀ p ∈ toSendOf srv'.listener, p ∈ toSendOf srv.listener) ∨
      ∃ m i plan toSend, srv.listener = .updateMlt m i plan ∧ n ≤ i ∧
        sortToSend plan.toSend = some toSend ∧ toSendOf srv'.listener = toSend := by
  cases hstep with
  | launch m i plan toSend hl hi hsort => exact Or.inr ⟨m, i, plan, toSend, hl, hi, hsort, rfl⟩
  | usr2 | calculateSai | setEaclEpoch | resetAccess | threshold | noRebalancing
  | askRebalancing | incrAccess | storage | crash => exact Or.inl fun p hp => hp
  | send server toSend packet receiver hl =>
      apply Or.inl
      intro p hp
      rw [hl]
      exact List.mem_cons_of_mem _ hp
  | _ =>
      apply Or.inl
      simp [toSendOf, unsent, Packing.start, Packing.append, *]

/-- The packets still to be sent keep their destinations. -/
theorem Step.dest {prev cur : Fin n → Fin nb} {s : Fin nb} {srv srv' : State n nb A C}
    {l : Label} (latest : Latest prev cur s srv)
    (hdest : ∀ p ∈ toSendOf srv.listener, p.1 = cur p.2) (hstep : Step s srv l srv') :
    ∀ p ∈ toSendOf srv'.listener, p.1 = cur p.2 := by
  intro p hp
  rcases hstep.toSend with hsub | ⟨m, i, plan, toSend, hl, hi, hsort, heq⟩
  · exact hdest p (hsub p hp)
  · rw [heq, (sortToSend_perm hsort).mem_iff] at hp
    exact (latest.plan m i plan hl hi).2.1 p hp

end Steps

end MeDiE.Server

namespace MeDiE.System

open MeDiE.Server
open MeDiE.Storage
open MeDiE.Verified
open MeDiE.Verified.Transition

variable {n nb : Nat} {A C : Type} [NeZero nb]

/-! ## The tables that are handed over -/

theorem tableAt_last (mlts : List (MltPacket n nb)) (m : MltPacket n nb) :
    tableAt (mlts ++ [m]) (mlts.length + 1) = m := by
  rw [tableAt, List.getD_cons_succ, List.getD_eq_getElem?_getD, List.getElem?_concat_length]
  rfl

/-- The owners of the table before the last one, and of the last one. -/
def prevOwner (mlts : List (MltPacket n nb)) : Fin n → Fin nb :=
  (tableAt mlts (mlts.length - 1)).idSrv

def curOwner (mlts : List (MltPacket n nb)) : Fin n → Fin nb :=
  (tableAt mlts mlts.length).idSrv

omit [NeZero nb] in
/-- What a server sends is what it loses, and it waits for as much as it gains. -/
theorem lists_of_planOf {old new : MltPacket n nb} (h : Follows old new) (s : Fin nb) :
    ((planOf s old new).toSend.map Prod.snd).Nodup ∧
      (∀ p ∈ (planOf s old new).toSend, p.1 = new.idSrv p.2) ∧
      (∀ e, e ∈ (planOf s old new).toSend.map Prod.snd ↔
        Handover.Lost old.idSrv new.idSrv s e) ∧
      (planOf s old new).toReceive.length = Handover.gained old.idSrv new.idSrv s := by
  have hver := fun e => (h.version_eq_iff e)
  refine ⟨nodup_sends (List.nodup_finRange n) s _ _, ?_, ?_, ?_⟩
  · rintro ⟨d, e⟩ hmem
    exact (mem_sends.mp hmem).2.2.2
  · intro e
    rw [List.mem_map]
    constructor
    · rintro ⟨⟨d, e⟩, hmem, rfl⟩
      obtain ⟨_, hne, hold, _⟩ := mem_sends.mp hmem
      exact ⟨hold, fun hnew => hne ((hver e).mpr (hold.trans hnew.symm))⟩
    · rintro ⟨hold, hnew⟩
      have hne : old.nVer e ≠ new.nVer e :=
        fun heq => hnew (((hver e).mp heq).symm.trans hold)
      exact ⟨(new.idSrv e, e), mem_sends.mpr ⟨List.mem_finRange e, hne, hold, rfl⟩, rfl⟩
  · rw [planOf, receives, List.length_map,
      ← List.toFinset_card_of_nodup ((List.nodup_finRange n).filter _), Handover.gained]
    apply congrArg Finset.card
    ext e
    simp only [List.mem_toFinset, List.mem_filter, List.mem_finRange, true_and,
      decide_eq_true_eq, Finset.mem_filter_univ]
    constructor
    · rintro ⟨_, hold, hnew⟩
      exact ⟨hnew, hold⟩
    · rintro ⟨hnew, hold⟩
      exact ⟨fun heq => hold (((hver e).mp heq).trans hnew), hold, hnew⟩

/-- A server takes over the last table that was sent out, and nothing else. -/
theorem latest_of_inv {mgr : Manager.State n nb} {mlts : List (MltPacket n nb)}
    (hhistory : HistoryInv mgr mlts) {s : Fin nb} {srv : Server.State n nb A C}
    (inv : ReplicaInv mlts s srv) (hcommit : srv.pending.count .commit ≤ 1) :
    Latest (prevOwner mlts) (curOwner mlts) s srv := by
  rw [count_commit] at hcommit
  -- the table in hand is the last one
  have hupdate : ∀ m i plan, srv.listener = .updateMlt m i plan →
      tableAt mlts (mlts.length - 1) = tableAt mlts srv.plans.length ∧
        tableAt mlts mlts.length = m ∧ Follows (tableAt mlts srv.plans.length) m := by
    intro m i plan hl
    have hqueue := inv.queue
    have hempty : pendingMlts srv.sub = [] := by
      rw [hl] at hcommit
      exact List.length_eq_zero_iff.mp (by simpa [handling] using hcommit)
    rw [hl, hempty, inHandMlt, List.append_nil] at hqueue
    have hlength := congrArg List.length hqueue
    rw [List.length_drop, List.length_singleton] at hlength
    have hlt : srv.plans.length < mlts.length := by omega
    have hnext := tableAt_succ hqueue.symm
    have hfollows := follows_tableAt hhistory hlt
    rw [hnext] at hfollows
    refine ⟨?_, ?_, hfollows⟩
    · rw [show mlts.length - 1 = srv.plans.length by omega]
    · rw [← hnext, show mlts.length = srv.plans.length + 1 by omega]
  constructor
  · intro m i plan hl
    obtain ⟨hprev, hcur, hfollows⟩ := hupdate m i plan hl
    have hrow := ((inv.update m i plan hl).2 i).2 (Nat.le_refl _)
    rw [prevOwner, curOwner, hprev, hcur]
    exact ⟨rfl, hrow.1, by rw [hrow.2]; exact hfollows.version_eq_iff i⟩
  · intro m i plan hl hi
    obtain ⟨hprev, hcur, hfollows⟩ := hupdate m i plan hl
    rw [prevOwner, curOwner, hprev, hcur, (inv.update m i plan hl).1, planUpTo_of_le hi]
    exact lists_of_planOf hfollows s
  · intro sender receiver hl
    rw [hl] at hcommit
    exact List.length_eq_zero_iff.mp (by simpa [handling] using hcommit)

variable [Eacl A n] [DecidableEq C]

theorem latest_of_reachable {hash : Key → Fin n} {x : State n nb A C}
    (h : Reachable hash x) (s : Fin nb) :
    Latest (prevOwner x.log.mlts) (curOwner x.log.mlts) s (x.srv s) :=
  latest_of_inv (historyInv_of_reachable h) (replicaInv_of_reachable h s)
    ((pollInv_of_reachable h).count_commit s)

/-! ## The system as a hand-over -/

/-- No storage operation of a transfer fails. -/
def NoError (l : Label nb C) (x : State n nb A C) : Prop :=
  match l with
  | .server s l' => Unbroken (x.srv s) l'
  | _ => True

omit [NeZero nb] [Eacl A n] [DecidableEq C] in
instance (l : Label nb C) (x : State n nb A C) : Decidable (NoError l x) :=
  decidableOnServer (fun s l' => Unbroken (x.srv s) l') l

/-- `h` is the hand-over that the system is in. -/
structure Represents (x : State n nb A C) (h : Handover.State (Fin nb) (Fin n)) : Prop where
  prev : h.prev = prevOwner x.log.mlts
  cur : h.cur = curOwner x.log.mlts
  srv : ∀ s, h.srv s = handoverOf (x.srv s)
  dest : ∀ s, ∀ p ∈ toSendOf (x.srv s).listener, p.1 = h.cur p.2

omit [Eacl A n] [DecidableEq C] in
/-- Nothing has happened to the transfers of a server. -/
def SameTransfer (x : State n nb A C) (s : Fin nb) (srv : Server.State n nb A C) : Prop :=
  handoverOf srv = handoverOf (x.srv s) ∧
    toSendOf srv.listener = toSendOf (x.srv s).listener

omit [Eacl A n] [DecidableEq C] in
theorem Represents.congr {x y : State n nb A C} {h : Handover.State (Fin nb) (Fin n)}
    (rep : Represents x h) (hmlts : y.log.mlts = x.log.mlts)
    (hsrv : ∀ s, SameTransfer x s (y.srv s)) : Represents y h where
  prev := by
    rw [hmlts]
    exact rep.prev
  cur := by
    rw [hmlts]
    exact rep.cur
  srv := fun s => (rep.srv s).trans (hsrv s).1.symm
  dest := fun s p hp => rep.dest s p ((hsrv s).2 ▸ hp)

omit [DecidableEq C] in
theorem Represents.server {x : State n nb A C} {h : Handover.State (Fin nb) (Fin n)}
    (rep : Represents x h) {s : Fin nb} {l : Server.Label} {srv : Server.State n nb A C}
    (latest : Latest (prevOwner x.log.mlts) (curOwner x.log.mlts) s (x.srv s))
    (hgood : Unbroken (x.srv s) l) (hstep : Server.Step s (x.srv s) l srv) :
    ∃ h', (h' = h ∨ Handover.Step h h') ∧ Represents (x.setSrv s srv) h' := by
  rw [← rep.prev, ← rep.cur] at latest
  obtain ⟨h', hstep', hprev, hcur, hsrv⟩ :=
    hstep.matched latest (rep.srv s) (rep.dest s) hgood
  refine ⟨h', hstep', ?_⟩
  constructor
  · exact hprev.trans rep.prev
  · exact hcur.trans rep.cur
  · intro w
    rw [hsrv, setSrv_srv]
    by_cases hw : w = s
    · subst hw
      rw [Function.update_self, Function.update_self]
    · rw [Function.update_of_ne hw, Function.update_of_ne hw]
      exact rep.srv w
  · rw [hcur]
    exact forall_setSrv (P := fun _ srv => ∀ p ∈ toSendOf srv.listener, p.1 = h.cur p.2)
      rep.dest (hstep.dest latest (rep.dest s))

omit [Eacl A n] [DecidableEq C] in
/-- The manager sends its table. -/
theorem Represents.publish {x : State n nb A C} {h : Handover.State (Fin nb) (Fin n)}
    (rep : Represents x h) (hpending : ∀ s, (x.srv s).pending = []) (m : MltPacket n nb)
    {y : State n nb A C} (hmlts : y.log.mlts = x.log.mlts ++ [m])
    (hsrv : ∀ s, y.srv s = { x.srv s with sub := (x.srv s).sub ++ [.mlt m] }) :
    ∃ h', (h' = h ∨ Handover.Step h h') ∧ Represents y h' := by
  have hsettled : ∀ s, (h.srv s).phase = .settled := by
    intro s
    rw [rep.srv]
    exact settled_of_pending (hpending s)
  refine ⟨_, Or.inr (Handover.Step.publish m.idSrv hsettled), ?_⟩
  constructor
  · rw [hmlts, prevOwner, List.length_append, List.length_singleton, Nat.add_sub_cancel,
      tableAt_append (Nat.le_refl _)]
    exact rep.cur
  · rw [hmlts, curOwner, List.length_append, List.length_singleton, tableAt_last]
  · intro s
    show { h.srv s with phase := .applying ∅ } = handoverOf (y.srv s)
    rw [rep.srv, hsrv, ← (applying_of_pending (hpending s) m).1]
    rfl
  · intro s p hp
    rw [hsrv] at hp
    rw [(applying_of_pending (hpending s) m).2] at hp
    cases hp

omit [Eacl A n] [DecidableEq C] in
theorem Represents.set {x : State n nb A C} {h : Handover.State (Fin nb) (Fin n)}
    (rep : Represents x h) {s : Fin nb} {srv : Server.State n nb A C}
    {srv' : Handover.Server (Fin nb) (Fin n)} (hsrv : srv' = handoverOf srv)
    (hdest : ∀ p ∈ toSendOf srv.listener, p.1 = h.cur p.2) :
    Represents (x.setSrv s srv) (h.set s srv') where
  prev := rep.prev
  cur := rep.cur
  srv := fun w => by
    by_cases hw : w = s
    · subst hw
      simp [hsrv]
    · simp [hw, rep.srv]
  dest := forall_setSrv (P := fun _ srv => ∀ p ∈ toSendOf srv.listener, p.1 = h.cur p.2)
    rep.dest hdest

omit [Eacl A n] [DecidableEq C] in
theorem Represents.mark {x : State n nb A C} {h : Handover.State (Fin nb) (Fin n)}
    (rep : Represents x h) (e : Fin n) (stage : Handover.Stage) :
    Represents x (h.mark e stage) :=
  ⟨rep.prev, rep.cur, rep.srv, rep.dest⟩

omit [Eacl A n] [DecidableEq C] in
theorem Represents.take {x : State n nb A C} {h : Handover.State (Fin nb) (Fin n)}
    (rep : Represents x h) (inv : Handover.Inv h) {w s : Fin nb} {sender : LoadSender n nb}
    {left : Nat} {packet : Server.Packet n}
    (hw : (x.srv w).listener = .transfer sender (.recv (left + 1)))
    (hwire : (x.srv s).wire = some (w, packet)) :
    ∃ h', (h' = h ∨ Handover.Step h h') ∧
      Represents ((x.setSrv s { x.srv s with wire := none }).setSrv w
        { (x.setSrv s { x.srv s with wire := none }).srv w with
          listener := .transfer sender (.unpack s packet.entry packet.names left) }) h' := by
  have hphase : (h.srv w).phase = .moving (sndOf sender) (.recv (left + 1)) := by
    rw [rep.srv, handoverOf, hw]
    rfl
  have hwire' : (h.srv s).wire = some (w, packet.entry) := by
    rw [rep.srv, handoverOf, hwire]
    rfl
  have hne : s ≠ w := by
    obtain ⟨hstage, hs, hw⟩ := ((inv.server s).wire w packet.entry).mp hwire'
    intro heq
    have hdone := inv.same packet.entry (by rw [← hs, ← hw, heq])
    rw [hstage] at hdone
    cases hdone
  refine ⟨_, Or.inr (Handover.Step.take hphase hwire' hne), Represents.mark ?_ _ _⟩
  have htaken : Represents (x.setSrv s { x.srv s with wire := none })
      (h.set s { h.srv s with wire := none }) := by
    apply rep.set
    · rw [rep.srv]
      rfl
    · exact rep.dest s
  apply htaken.set
  · rw [rep.srv, setSrv_srv, Function.update_of_ne hne.symm]
    rfl
  · have hdest := rep.dest w
    rw [hw] at hdest
    exact hdest

omit [Eacl A n] [DecidableEq C] in
theorem Represents.reply {x : State n nb A C} {h : Handover.State (Fin nb) (Fin n)}
    (rep : Represents x h) (inv : Handover.Inv h) {w source : Fin nb}
    {sender : LoadSender n nb} {entry : Fin n} {left : Nat}
    (hw : (x.srv w).listener = .transfer sender (.reply source entry left)) :
    ∃ h', (h' = h ∨ Handover.Step h h') ∧
      Represents ((x.setSrv source { x.srv source with ack := true }).setSrv w
        { (x.setSrv source { x.srv source with ack := true }).srv w with
          listener := .transfer sender (.recv left) }) h' := by
  have hphase : (h.srv w).phase = .moving (sndOf sender) (.reply source entry left) := by
    rw [rep.srv, handoverOf, hw]
    rfl
  have hne : source ≠ w := by
    intro heq
    obtain ⟨hw, hsource, _⟩ := (inv.server w).opened source entry (by rw [hphase]; rfl)
    have hawaiting := (inv.opened w source entry (by rw [hphase]; rfl)).1
    have hlost := (inv.server source).lost_of_awaiting hawaiting
    exact hlost.2 (by rw [← hw, heq])
  refine ⟨_, Or.inr (Handover.Step.reply hphase hne), ?_⟩
  have hacked : Represents (x.setSrv source { x.srv source with ack := true })
      (h.set source { h.srv source with ack := true }) := by
    apply rep.set
    · rw [rep.srv]
      rfl
    · exact rep.dest source
  apply hacked.set
  · rw [rep.srv, setSrv_srv, Function.update_of_ne hne.symm]
    rfl
  · have hdest := rep.dest w
    rw [hw] at hdest
    exact hdest

/-- A step of the system is a step of the hand-over, or none. -/
theorem Represents.step {hash : Key → Fin n} {x y : State n nb A C} {l : Label nb C}
    {h : Handover.State (Fin nb) (Fin n)} (rep : Represents x h) (inv : Handover.Inv h)
    (latest : ∀ s, Latest (prevOwner x.log.mlts) (curOwner x.log.mlts) s (x.srv s))
    (hsent : x.mgr.point = .sendMlt → ∀ s, (x.srv s).pending = []) (hgood : NoError l x)
    (hstep : Step hash x l y) :
    ∃ h', (h' = h ∨ Handover.Step h h') ∧ Represents y h' := by
  have hstep' := hstep
  have hpop : ∀ (s : Fin nb) (push : List (ToManager n nb)),
      ∀ w, SameTransfer x w ((x.setSrv s { x.srv s with push := push }).srv w) :=
    fun s push => forall_setSrv (fun _ => ⟨rfl, rfl⟩) ⟨rfl, rfl⟩
  cases hstep with
  | usrHandler2 => exact ⟨h, Or.inl rfl, rep.congr rfl fun _ => ⟨rfl, rfl⟩⟩
  | manager mgr _ => exact ⟨h, Or.inl rfl, rep.congr rfl fun _ => ⟨rfl, rfl⟩⟩
  | recvHelp s epoch push hp hpush => exact ⟨h, Or.inl rfl, rep.congr rfl (hpop s push)⟩
  | discardEacl s id sai loadLvl push hp hpush =>
      exact ⟨h, Or.inl rfl, rep.congr rfl (hpop s push)⟩
  | discardHelp s epoch nbRcv push hp hrcv hpush =>
      exact ⟨h, Or.inl rfl, rep.congr rfl (hpop s push)⟩
  | recvEacl s id sai loadLvl nbRcv push hp hrcv hpush =>
      exact ⟨h, Or.inl rfl, rep.congr rfl (hpop s push)⟩
  | sendAsk epoch hp =>
      refine ⟨h, Or.inl rfl, rep.congr rfl fun s => ⟨?_, rfl⟩⟩
      simp [handoverOf, phaseOf, pendingMlts_append, pendingMlts]
  | sendMlt hp =>
      exact rep.publish (hsent hp) (mltPacket x.mgr) rfl fun s => rfl
  | server s l srv hsrv => exact rep.server (latest s) hgood hsrv
  | takePacket w s sender left packet hw hwire => exact rep.take inv hw hwire
  | replyPacket w source sender entry left hw => exact rep.reply inv hw
  | _ =>
      have hsame := hstep'.sameRounds rfl
      refine ⟨h, Or.inl rfl, rep.congr hsame.mlts fun s => ?_⟩
      obtain ⟨main, inChargeMd, heq⟩ := hsame.srv s
      rw [heq]
      exact ⟨rfl, rfl⟩

theorem represents_step {hash : Key → Fin n} {x y : State n nb A C} {l : Label nb C}
    {h : Handover.State (Fin nb) (Fin n)} (hx : Reachable hash x) (rep : Represents x h)
    (inv : Handover.Inv h) (hgood : NoError l x) (hstep : Step hash x l y) :
    ∃ h', (h' = h ∨ Handover.Step h h') ∧ Represents y h' := by
  refine rep.step inv (latest_of_reachable hx) (fun hp => ?_) hgood hstep
  have hpoll := pollInv_of_reachable hx
  exact hpoll.pending_of_collected (by simp [pollOf, modeOf, hp])

omit [DecidableEq C] in
theorem represents_init :
    Represents (init n nb A C) (Handover.init (curOwner ([] : List (MltPacket n nb)))) where
  prev := rfl
  cur := rfl
  srv := fun _ => rfl
  dest := fun _ _ hp => by cases hp

theorem reachable_of_noError {hash : Key → Fin n} {x : State n nb A C}
    (hx : Reach (init n nb A C) (StepsIf (step hash) NoError) x) : Reachable hash x :=
  hx.mono fun _ _ => StepsIf.steps

/-- Every state of a run without transfer errors is a state of a hand-over. -/
theorem handover_of_run {hash : Key → Fin n} {x : State n nb A C}
    (hx : Reach (init n nb A C) (StepsIf (step hash) NoError) x) :
    ∃ h, Handover.Inv h ∧ Represents x h := by
  have hrelated : ∃ h, Reach (Handover.init (curOwner ([] : List (MltPacket n nb))))
      Handover.Step h ∧ Represents x h := by
    apply hx.related Represents represents_init
    rintro x y h hx hh hrep ⟨l, hgood, hl⟩
    exact represents_step (reachable_of_noError hx) hrep (Handover.inv_of_reach hh) hgood
      (step_cases hl)
  obtain ⟨h, hh, hrep⟩ := hrelated
  exact ⟨h, Handover.inv_of_reach hh, hrep⟩

end MeDiE.System
