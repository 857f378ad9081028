import Mathlib.Data.List.GetD
import MeDiE.Eacl.Indedh
import MeDiE.Server.Plan
import MeDiE.System.History

/-!
# The servers' copies of the table

Every server takes over the tables that were sent out, in order.  The number of
plans it has made says how many it has taken over; what is left is on its socket,
and the columns of its table are those of the table it is at.  So the plan a server
makes in a round compares the same two tables as the plans of all others.
-/

namespace MeDiE.System

open MeDiE.Storage
open MeDiE.Table
open MeDiE.Server
open MeDiE.Verified

variable {n nb : Nat} {A C : Type}

/-- The tables on a socket. -/
def pendingMlts : List (FromManager n nb) → List (MltPacket n nb)
  | [] => []
  | .ask _ :: sub => pendingMlts sub
  | .mlt m :: sub => m :: pendingMlts sub

/-- The table a listener is taking over. -/
def inHandMlt : Listener n nb → List (MltPacket n nb)
  | .updateMlt m _ _ => [m]
  | .recv => []
  | .checkEpoch _ => []
  | .waitEpoch _ => []
  | .readSai => []
  | .sendEacl _ => []
  | .transfer _ _ => []

theorem pendingMlts_append (sub sub' : List (FromManager n nb)) :
    pendingMlts (sub ++ sub') = pendingMlts sub ++ pendingMlts sub' := by
  induction sub with
  | nil => rfl
  | cons packet sub ih =>
      cases packet with
      | ask epoch => exact ih
      | mlt m => exact congrArg (m :: ·) ih

variable [NeZero nb]

/-- The table after `k` rounds. -/
def tableAt (mlts : List (MltPacket n nb)) (k : Nat) : MltPacket n nb :=
  (initPacket n nb :: mlts).getD k (initPacket n nb)

theorem tableAt_append {mlts : List (MltPacket n nb)} {k : Nat} (hk : k ≤ mlts.length)
    (m : MltPacket n nb) : tableAt (mlts ++ [m]) k = tableAt mlts k := by
  have hlt : k < (initPacket n nb :: mlts).length := by
    simpa using Nat.lt_succ_of_le hk
  rw [tableAt, tableAt, ← List.cons_append, List.getD_append _ _ _ _ hlt]

theorem tableAt_succ {mlts : List (MltPacket n nb)} {k : Nat} {m : MltPacket n nb}
    {rest : List (MltPacket n nb)} (h : mlts.drop k = m :: rest) :
    tableAt mlts (k + 1) = m := by
  have hget : mlts[k]? = some m := by
    rw [← List.head?_drop, h]
    rfl
  simp [tableAt, List.getD_eq_getElem?_getD, hget]

/-- Successive tables follow each other. -/
theorem follows_tableAt {mgr : Manager.State n nb} {mlts : List (MltPacket n nb)}
    (inv : HistoryInv mgr mlts) {k : Nat} (hk : k < mlts.length) :
    Follows (tableAt mlts k) (tableAt mlts (k + 1)) := by
  have hchain := List.isChain_iff_getElem.mp inv.chain k (by simpa using hk)
  have hlt : k < (initPacket n nb :: mlts).length := by
    simpa using Nat.lt_succ_of_lt hk
  have hlt' : k + 1 < (initPacket n nb :: mlts).length := by simpa using hk
  rw [tableAt, tableAt, List.getD_eq_getElem _ _ hlt, List.getD_eq_getElem _ _ hlt']
  exact hchain

/-- Server `s` has taken over as many of the tables as it has made plans. -/
structure ReplicaInv (mlts : List (MltPacket n nb)) (s : Fin nb)
    (srv : Server.State n nb A C) : Prop where
  le : srv.plans.length ≤ mlts.length
  queue : inHandMlt srv.listener ++ pendingMlts srv.sub = mlts.drop srv.plans.length
  plans : ∀ k, k < srv.plans.length → srv.plans[k]? =
    some (planOf s (tableAt mlts k) (tableAt mlts (k + 1)))
  rows : inHandMlt srv.listener = [] →
    srv.table.idSrv = (tableAt mlts srv.plans.length).idSrv ∧
      srv.table.nVer = (tableAt mlts srv.plans.length).nVer
  update : ∀ m i plan, srv.listener = .updateMlt m i plan →
    plan = planUpTo i s (tableAt mlts srv.plans.length) m ∧
      TakenOver i (tableAt mlts srv.plans.length) m srv.table

theorem ReplicaInv.congr {mlts : List (MltPacket n nb)} {s : Fin nb}
    {srv srv' : Server.State n nb A C} (inv : ReplicaInv mlts s srv)
    (hinHand : inHandMlt srv.listener = []) (hinHand' : inHandMlt srv'.listener = [])
    (hsub : pendingMlts srv'.sub = pendingMlts srv.sub) (hplans : srv'.plans = srv.plans)
    (hsrv : srv'.table.idSrv = srv.table.idSrv) (hver : srv'.table.nVer = srv.table.nVer) :
    ReplicaInv mlts s srv' where
  le := by
    rw [hplans]
    exact inv.le
  queue := by
    rw [hinHand', hsub, hplans, ← inv.queue, hinHand]
  plans := by
    rw [hplans]
    exact inv.plans
  rows := by
    rw [hsrv, hver, hplans]
    exact fun _ => inv.rows hinHand
  update := by
    intro m i plan h
    rw [h] at hinHand'
    cases hinHand'

/-- A table that is being taken over is the next one. -/
theorem ReplicaInv.of_update {mlts : List (MltPacket n nb)} {s : Fin nb}
    {srv : Server.State n nb A C} (inv : ReplicaInv mlts s srv) {m : MltPacket n nb} {i : Nat}
    {plan : Plan n nb} (hl : srv.listener = .updateMlt m i plan) :
    m :: pendingMlts srv.sub = mlts.drop srv.plans.length ∧
      srv.plans.length < mlts.length := by
  have hqueue : m :: pendingMlts srv.sub = mlts.drop srv.plans.length := by
    rw [← inv.queue, hl]
    rfl
  refine ⟨hqueue, ?_⟩
  by_contra hge
  rw [List.drop_eq_nil_of_le (Nat.le_of_not_lt hge)] at hqueue
  cases hqueue

/-- A table is sent out. -/
theorem ReplicaInv.publish {mlts : List (MltPacket n nb)} {s : Fin nb}
    {srv : Server.State n nb A C} (inv : ReplicaInv mlts s srv) (m : MltPacket n nb) :
    ReplicaInv (mlts ++ [m]) s { srv with sub := srv.sub ++ [.mlt m] } := by
  have hat : ∀ {k}, k ≤ srv.plans.length → tableAt (mlts ++ [m]) k = tableAt mlts k :=
    fun hk => tableAt_append (hk.trans inv.le) m
  constructor
  · show srv.plans.length ≤ (mlts ++ [m]).length
    rw [List.length_append]
    exact inv.le.trans (Nat.le_add_right _ _)
  · show inHandMlt srv.listener ++ pendingMlts (srv.sub ++ [.mlt m]) = _
    rw [pendingMlts_append, ← List.append_assoc, inv.queue,
      List.drop_append_of_le_length inv.le]
    rfl
  · intro k hk
    rw [hat (Nat.le_of_lt hk), hat hk]
    exact inv.plans k hk
  · intro h
    rw [hat (Nat.le_refl _)]
    exact inv.rows h
  · intro m' i plan h
    rw [hat (Nat.le_refl _)]
    exact inv.update m' i plan h

variable [Eacl A n]

theorem ReplicaInv.step {mgr : Manager.State n nb} {mlts : List (MltPacket n nb)}
    (hhistory : HistoryInv mgr mlts) {s : Fin nb} {srv srv' : Server.State n nb A C}
    (inv : ReplicaInv mlts s srv) {l : Server.Label} (h : Server.Step s srv l srv') :
    ReplicaInv mlts s srv' := by
  cases h with
  | recvAsk epochNeeded sub hl hsub =>
      apply inv.congr
      · rw [hl]
        rfl
      · rfl
      · rw [hsub]
        rfl
      · rfl
      · rfl
      · rfl
  | recvMlt tempMlt sub hl hsub =>
      have hrows := inv.rows (by rw [hl]; rfl)
      constructor
      · exact inv.le
      · rw [← inv.queue, hl, hsub]
        rfl
      · exact inv.plans
      · intro h
        cases h
      · intro m i plan h
        cases h
        constructor
        · rfl
        · intro e
          constructor
          · intro hlt
            exact absurd hlt (Nat.not_lt_zero _)
          · intro _
            exact ⟨congrFun hrows.1 e, congrFun hrows.2 e⟩
  | updateRow tempMlt i plan hl =>
      obtain ⟨hplan, htable⟩ := inv.update _ _ _ hl
      obtain ⟨hqueue, hlt⟩ := inv.of_update hl
      have hfollows := follows_tableAt hhistory hlt
      rw [tableAt_succ hqueue.symm] at hfollows
      constructor
      · exact inv.le
      · exact hqueue
      · exact inv.plans
      · intro h
        cases h
      · intro m j plan' h
        cases h
        constructor
        · rw [hplan]
          exact planUpTo_updateRow s htable
        · exact takenOver_updateRow s plan htable (hfollows.version_eq_iff i).mp
  | launch tempMlt i plan toSend hl hi hsort =>
      obtain ⟨hplan, htable⟩ := inv.update _ _ _ hl
      obtain ⟨hqueue, hlt⟩ := inv.of_update hl
      have hat := tableAt_succ hqueue.symm
      constructor
      · show (srv.plans ++ [plan]).length ≤ mlts.length
        rw [List.length_append]
        exact hlt
      · show pendingMlts srv.sub = mlts.drop (srv.plans ++ [plan]).length
        rw [List.length_append, List.length_singleton, ← List.drop_drop, ← hqueue]
        rfl
      · intro k hk
        show (srv.plans ++ [plan])[k]? = _
        have hk' : k < srv.plans.length + 1 := by simpa using hk
        by_cases hlast : k = srv.plans.length
        · subst hlast
          rw [List.getElem?_concat_length, hat, hplan, planUpTo_of_le hi]
        · have hk'' : k < srv.plans.length := by omega
          rw [List.getElem?_append_left hk'']
          exact inv.plans k hk''
      · intro _
        show srv.table.idSrv = (tableAt mlts (srv.plans ++ [plan]).length).idSrv ∧ _
        rw [List.length_append, List.length_singleton, hat]
        have hall := fun e : Fin n => (htable e).1 (by omega)
        exact ⟨funext fun e => (hall e).1, funext fun e => (hall e).2⟩
      · intro m j plan' h
        cases h
  | usr2 | calculateSai | setEaclEpoch | resetAccess | threshold | noRebalancing
  | askRebalancing | incrAccess | storage | crash =>
      exact ⟨inv.le, inv.queue, inv.plans, inv.rows, inv.update⟩
  | _ =>
      apply inv.congr
      · simp [*, inHandMlt]
      · simp [inHandMlt]
      all_goals rfl

omit [Eacl A n] in
theorem ReplicaInv.external {mlts : List (MltPacket n nb)} {s : Fin nb}
    {srv srv' : Server.State n nb A C} (inv : ReplicaInv mlts s srv)
    (h : External srv srv') : ReplicaInv mlts s srv' := by
  cases h with
  | take sender source packet left hl =>
      apply inv.congr
      · rw [hl]
        rfl
      all_goals rfl
  | reply sender source entry left hl =>
      apply inv.congr
      · rw [hl]
        rfl
      all_goals rfl
  | _ => exact ⟨inv.le, inv.queue, inv.plans, inv.rows, inv.update⟩

theorem replicaInv_init (s : Fin nb) :
    ReplicaInv [] s (Server.State.init n nb A C) where
  le := Nat.le_refl _
  queue := rfl
  plans := fun _ hk => by cases hk
  rows := fun _ => ⟨rfl, rfl⟩
  update := fun _ _ _ h => by cases h

theorem replicaInv_step [DecidableEq C] {hash : Key → Fin n} {x y : State n nb A C}
    {l : Label nb C} (hhistory : HistoryInv x.mgr x.log.mlts)
    (inv : ∀ s, ReplicaInv x.log.mlts s (x.srv s)) (h : Step hash x l y) :
    ∀ s, ReplicaInv y.log.mlts s (y.srv s) := by
  apply h.servers inv
  · exact fun s l srv hsrv => (inv s).step hhistory hsrv
  · exact fun s srv srv' hext hs => hs.external hext
  · intro s epoch
    have hs := inv s
    constructor
    · exact hs.le
    · rw [pendingMlts_append]
      simpa [pendingMlts] using hs.queue
    · exact hs.plans
    · exact hs.rows
    · exact hs.update
  · exact fun s => (inv s).publish _

theorem replicaInv_of_reachable [DecidableEq C] {hash : Key → Fin n}
    {x : State n nb A C} (h : Reachable hash x) :
    ∀ s, ReplicaInv x.log.mlts s (x.srv s) :=
  h.invariant (I := fun x => ∀ s, ReplicaInv x.log.mlts s (x.srv s)) replicaInv_init
    fun _ _ _ hx inv hstep => replicaInv_step (historyInv_of_reachable hx) inv hstep

/-! ## The plans fit together -/

/-- In every state that the system reaches, whatever has failed in a transfer: where a
server is not in the middle of an update, its columns are those of the last table that it
has taken over.  In every round the old owner and the new owner of an entry whose version
changes, and nobody else, put it on their lists, once each and each naming the other.  And
where all servers have made their lists for a round, a server is sent as many packets as it
waits for. -/
theorem plans_fit_together [DecidableEq C] (hash : Key → Fin n) (x : State n nb A C)
    (hx : Reachable hash x) :
    (∀ s, (∀ m i plan, (x.srv s).listener ≠ .updateMlt m i plan) →
      (x.srv s).table.idSrv = (tableAt x.log.mlts (x.srv s).plans.length).idSrv ∧
        (x.srv s).table.nVer = (tableAt x.log.mlts (x.srv s).plans.length).nVer) ∧
    (∀ k s plan, (x.srv s).plans[k]? = some plan →
      let old := tableAt x.log.mlts k
      let new := tableAt x.log.mlts (k + 1)
      (∀ e, old.nVer e ≠ new.nVer e →
        old.idSrv e ≠ new.idSrv e ∧
          (∀ d, (d, e) ∈ plan.toSend ↔ s = old.idSrv e ∧ d = new.idSrv e) ∧
          (∀ d, (d, e) ∈ plan.toReceive ↔ s = new.idSrv e ∧ d = old.idSrv e)) ∧
      (∀ e, old.nVer e = new.nVer e →
        ∀ d, (d, e) ∉ plan.toSend ∧ (d, e) ∉ plan.toReceive) ∧
      (plan.toSend.map Prod.snd).Nodup ∧ (plan.toReceive.map Prod.snd).Nodup) ∧
    (∀ (k : Nat) (plan : Fin nb → Plan n nb),
      (∀ s, (x.srv s).plans[k]? = some (plan s)) →
      ∀ d, ∑ s, ((plan s).toSend.filter (fun p => p.1 = d)).length =
        (plan d).toReceive.length) := by
  have hhistory := historyInv_of_reachable hx
  have hreplica := replicaInv_of_reachable hx
  have hplans : ∀ {k s plan}, (x.srv s).plans[k]? = some plan →
      k < x.log.mlts.length ∧
        plan = planOf s (tableAt x.log.mlts k) (tableAt x.log.mlts (k + 1)) := by
    intro k s plan hplan
    have hk : k < (x.srv s).plans.length := (List.getElem?_eq_some_iff.mp hplan).1
    have h := (hreplica s).plans k hk
    rw [hplan, Option.some.injEq] at h
    exact ⟨hk.trans_le (hreplica s).le, h⟩
  have hchanged : ∀ {k}, k < x.log.mlts.length → ∀ e,
      (tableAt x.log.mlts k).nVer e ≠ (tableAt x.log.mlts (k + 1)).nVer e →
      (tableAt x.log.mlts k).idSrv e ≠ (tableAt x.log.mlts (k + 1)).idSrv e :=
    fun hk e hver hsrv => hver (((follows_tableAt hhistory hk).version_eq_iff e).mpr hsrv)
  refine ⟨?_, ?_, ?_⟩
  · intro s hs
    apply (hreplica s).rows
    cases hl : (x.srv s).listener with
    | updateMlt m i plan => exact absurd hl (hs m i plan)
    | _ => rfl
  · intro k s plan hplan
    obtain ⟨hk, heq⟩ := hplans hplan
    subst heq
    refine ⟨?_, ?_, ?_, ?_⟩
    · intro e hver
      have hne := hchanged hk e hver
      refine ⟨hne, ?_, ?_⟩
      · intro d
        rw [planOf, mem_sends]
        constructor
        · rintro ⟨_, _, hs, hd⟩
          exact ⟨hs.symm, hd⟩
        · rintro ⟨hs, hd⟩
          exact ⟨List.mem_finRange e, hver, hs.symm, hd⟩
      · intro d
        rw [planOf, mem_receives]
        constructor
        · rintro ⟨_, _, _, hs, hd⟩
          exact ⟨hs.symm, hd⟩
        · rintro ⟨hs, hd⟩
          exact ⟨List.mem_finRange e, hver, fun h => hne (h.trans hs), hs.symm, hd⟩
    · intro e hver d
      constructor
      · intro hmem
        exact (mem_sends.mp hmem).2.1 hver
      · intro hmem
        exact (mem_receives.mp hmem).2.1 hver
    · exact nodup_sends (List.nodup_finRange n) s _ _
    · exact nodup_receives (List.nodup_finRange n) s _ _
  · intro k plan hplan d
    have hk := (hplans (hplan d)).1
    rw [(hplans (hplan d)).2, ← sum_sends _ _ d (hchanged hk)]
    exact Finset.sum_congr rfl fun s _ => by rw [(hplans (hplan s)).2]

/-! ## A round with a transfer -/

section Sample

/-- Two keys that are hashed to entries of server 0 when there are four entries and
two servers. -/
def keyA : Key := ⟨['a'], by decide, by decide⟩

def keyK : Key := ⟨['k'], by decide, by decide⟩

def sampleHash (key : Key) : Fin 4 := if key = keyA then 0 else 2

/-- A request and its answer. -/
def requestRun (s : Fin 2) (key : Key) (reqType : ReqType) : List (System.Label 2 Unit) :=
  [.clientSend () key reqType, .mainRecv s (), .server s .main, .server s .main,
    .mainReply s, .clientRecv ()]

/-- `k` steps of a thread of a server. -/
def threadRun (s : Fin 2) (l : Server.Label) (k : Nat) : List (System.Label 2 Unit) :=
  List.replicate k (.server s l)

/-- A handler runs through `eacl_calculate_sai`, with four steps for each entry. -/
def calculateRun (s : Fin 2) (i : Nat) : List (System.Label 2 Unit) :=
  threadRun s (.handler i) 18

/-- `SIGUSR2` at a server. -/
def signalRun (s : Fin 2) : List (System.Label 2 Unit) :=
  .server s .usr2 :: calculateRun s 0 ++ threadRun s (.handler 0) 4

/-- Both keys are created and updated, the first epoch ends, and server 0 asks for
a rebalancing, in which entry 0 is given to server 1. -/
def askRun : List (System.Label 2 Unit) :=
  requestRun 0 keyA (.create .empty) ++ requestRun 0 keyK (.create .empty) ++
    requestRun 0 keyA (.update .empty) ++ requestRun 0 keyK (.update .empty) ++
    .usrHandler2 :: signalRun 0 ++ signalRun 1 ++
    [.managerRecv 0, .manager, .manager, .manager, .manager, .managerSend]

def collectRun : List (System.Label 2 Unit) :=
  threadRun 0 .listener 5 ++ threadRun 1 .listener 5 ++
    [.managerRecv 0, .managerRecv 1, .manager]

/-- Both servers take the new table over and entry 0 is transferred. -/
def transferRun : List (System.Label 2 Unit) :=
  [.manager, .managerSend, .manager] ++ threadRun 0 .listener 6 ++
    threadRun 1 .listener 6 ++ threadRun 0 .sender 8 ++ .takePacket 1 0 ::
    threadRun 1 .receiver 5 ++ .replyPacket 1 :: threadRun 0 .sender 2 ++
    threadRun 0 .receiver 1 ++ threadRun 1 .sender 1 ++ threadRun 1 .receiver 1 ++
    threadRun 0 .listener 1 ++ threadRun 1 .listener 1

/-- The system of the sample runs. -/
abbrev SampleState : Type := System.State 4 2 (EaclIndedh.EaclData 4) Unit

def sampleRun (ls : List (System.Label 2 Unit)) : Option SampleState :=
  Transition.run (System.step sampleHash) ls (init 4 2 (EaclIndedh.EaclData 4) Unit)

theorem exists_of_sampleRun (ls : List (System.Label 2 Unit)) (p : SampleState → Bool)
    (h : (sampleRun ls).any p = true) : ∃ x, Reachable sampleHash x ∧ p x = true := by
  obtain ⟨x, hx, hp⟩ := (Option.any_eq_true p _).mp h
  exact ⟨x, Transition.reach_of_run ls Transition.Reach.start hx, hp⟩

end Sample

/-- In the first round server 0 sends one packet, which server 1 waits for. -/
theorem plans_fit_together_first_round :
    ∃ (x : SampleState) (plan : Fin 2 → Plan 4 2),
      (∀ s, (x.srv s).plans[0]? = some (plan s)) ∧ (plan 0).toSend = [(1, 0)] ∧
        ∑ s, ((plan s).toSend.filter (fun p => p.1 = 1)).length =
          (plan 1).toReceive.length := by
  let plan : Fin 2 → Plan 4 2 := fun s =>
    if s = 0 then ⟨[(1, 0)], []⟩ else ⟨[], [(0, 0)]⟩
  obtain ⟨x, hx, hplans⟩ := exists_of_sampleRun (askRun ++ collectRun ++ transferRun)
    (fun x => decide (∀ s, (x.srv s).plans[0]? = some (plan s))) (by decide +kernel)
  have hplan := of_decide_eq_true hplans
  exact ⟨x, plan, hplan, rfl, (plans_fit_together sampleHash x hx).2.2 0 plan hplan 1⟩

end MeDiE.System
