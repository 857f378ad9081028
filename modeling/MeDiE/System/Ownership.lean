import MeDiE.System.Transfers

/-!
# One owner at a time, one round at a time

What the hand-over and the rounds give for the system: never two servers accept
requests for an entry, the epochs asked for increase, every round takes one `EACL`
from every server, and a table is sent out only when everyone is done with the last
one.
-/

namespace MeDiE.System

open MeDiE.Server
open MeDiE.Storage
open MeDiE.Verified
open MeDiE.Verified.Transition

variable {n nb : Nat} {A C : Type}

/-- The server regards the entry as its own and not as being transferred. -/
def Owns (x : State n nb A C) (s : Fin nb) (e : Fin n) : Prop :=
  (x.srv s).table.idSrv e = s ∧ (x.srv s).table.state e = false

/-- The server has no MLT in hand and none on its socket. -/
def Finished (srv : Server.State n nb A C) : Prop := .commit ∉ srv.pending

theorem settled_of_finished {srv : Server.State n nb A C} (h : Finished srv) :
    (handoverOf srv).phase = .settled := by
  rw [Finished, ← List.count_eq_zero, count_commit, Nat.add_eq_zero_iff,
    List.length_eq_zero_iff] at h
  cases hl : srv.listener <;> simp_all [handling, handoverOf, phaseOf]

/-- A server that is done has taken over all tables. -/
theorem plans_of_finished [NeZero nb] {mlts : List (MltPacket n nb)} {s : Fin nb}
    {srv : Server.State n nb A C} (inv : ReplicaInv mlts s srv) (h : Finished srv) :
    srv.plans.length = mlts.length := by
  rw [Finished, ← List.count_eq_zero, count_commit, Nat.add_eq_zero_iff,
    List.length_eq_zero_iff] at h
  have hqueue := inv.queue
  have hhand : inHandMlt srv.listener = [] := by
    cases hl : srv.listener <;> simp_all [handling, inHandMlt]
  rw [hhand, h.2, List.append_nil] at hqueue
  exact Nat.le_antisymm inv.le (List.drop_eq_nil_iff.mp hqueue.symm)

theorem active_iff_owns [NeZero nb] {x : State n nb A C}
    {h : Handover.State (Fin nb) (Fin n)} (rep : Represents x h) (s : Fin nb) (e : Fin n) :
    Handover.Active h s e ↔ Owns x s e := by
  rw [Handover.Active, rep.srv]
  rfl

/-- The last table, with no entry in transfer. -/
def lastTable [NeZero nb] (mlts : List (MltPacket n nb)) : Table.Mlt n (Fin nb) where
  idSrv := (tableAt mlts mlts.length).idSrv
  nVer := (tableAt mlts mlts.length).nVer
  state _ := false

/-- Servers that are done have the last table. -/
theorem table_of_finished [NeZero nb] {x : State n nb A C}
    {h : Handover.State (Fin nb) (Fin n)} (inv : Handover.Inv h) (rep : Represents x h)
    (replica : ∀ s, ReplicaInv x.log.mlts s (x.srv s))
    (hfinished : ∀ s, Finished (x.srv s)) (s : Fin nb) :
    (x.srv s).table = lastTable x.log.mlts := by
  have hsettled : ∀ s, (h.srv s).phase = .settled := by
    intro s
    rw [rep.srv]
    exact settled_of_finished (hfinished s)
  have hplans := plans_of_finished (replica s) (hfinished s)
  have hhand : inHandMlt (x.srv s).listener = [] := by
    have hqueue := (replica s).queue
    rw [hplans, List.drop_length] at hqueue
    exact (List.append_eq_nil_iff.mp hqueue).1
  have hrows := (replica s).rows hhand
  rw [hplans] at hrows
  ext e
  · exact congrArg _ (congrFun hrows.1 e)
  · exact congrFun hrows.2 e
  · -- a settled server holds no row
    have hbusy := (inv.server s).busy e
    rw [rep.srv] at hbusy
    have hfree : ¬ (x.srv s).table.state e = true := by
      intro hstate
      rcases (hbusy.mp hstate).2.2 with ⟨_, hheld⟩ | ⟨_, hstage⟩
      · rw [← rep.srv, hsettled] at hheld
        exact hheld
      · exact hstage (inv.all_done hsettled e)
    simpa [lastTable] using hfree

variable [NeZero nb] [Eacl A n] [DecidableEq C]

/-- In a run in which no storage operation of a transfer fails, at most one server regards
an entry as its own and not as being transferred.  When every server is done with the
tables that it has been sent, exactly the owner of the entry in the last table does. -/
theorem single_active_owner (hash : Key → Fin n) (x : State n nb A C)
    (hx : Reach (init n nb A C) (StepsIf (step hash) NoError) x) (e : Fin n) :
    (∀ s s', Owns x s e → Owns x s' e → s = s') ∧
      ((∀ s, Finished (x.srv s)) → ∀ s, Owns x s e ↔ s = curOwner x.log.mlts e) := by
  obtain ⟨h, inv, rep⟩ := handover_of_run hx
  constructor
  · intro s s' hs hs'
    rw [← active_iff_owns rep] at hs hs'
    exact inv.active_unique hs hs'
  · intro hfinished s
    have hsettled : ∀ s, (h.srv s).phase = .settled := by
      intro s
      rw [rep.srv]
      exact settled_of_finished (hfinished s)
    rw [← active_iff_owns rep, inv.active_of_settled hsettled, rep.cur]

/-- After the first round of the sample run server 1 owns the entry that has moved. -/
theorem single_active_owner_first_round :
    ∃ x : SampleState, curOwner x.log.mlts 0 = 1 ∧ ∀ s, Owns x s 0 ↔ s = 1 := by
  have hrun : ((run (guarded (step sampleHash) NoError)
      (askRun ++ collectRun ++ transferRun) (init 4 2 (EaclIndedh.EaclData 4) Unit)).any
        fun x => decide (curOwner x.log.mlts 0 = 1 ∧
          ∀ s, Poll.Msg.commit ∉ (x.srv s).pending)) = true := by
    decide +kernel
  obtain ⟨x, hx, hp⟩ := (Option.any_eq_true _ _).mp hrun
  obtain ⟨howner, hfinished⟩ := of_decide_eq_true hp
  have howns := (single_active_owner sampleHash x (reach_of_guarded_run _ hx) 0).2 hfinished
  rw [howner] at howns
  exact ⟨x, howner, howns⟩

/-! ## The epochs that are asked for -/

/-- An `ASK` has been sent and `epoch_processed` is still to be set. -/
def asking : Manager.Point → Bool
  | .collect _ => true
  | .relabelling => true
  | .sendMlt => true
  | .setProcessed => true
  | _ => false

/-- Every `ASK` so far is of an earlier epoch than the next one would be. -/
structure AskOrder (x : State n nb A C) : Prop where
  sorted : x.log.asks.Pairwise (· < ·)
  le : ∀ k ∈ x.log.asks, k ≤ x.mgr.epoch
  next : ∀ j, x.mgr.point = .sendAsk j → j ≤ x.mgr.epoch ∧ ∀ k ∈ x.log.asks, k < j
  fresh : asking x.mgr.point = false → x.mgr.epochProcessed = false ∨ x.mgr.point = .newAsk →
    ∀ k ∈ x.log.asks, k < x.mgr.epoch

omit [NeZero nb] [Eacl A n] [DecidableEq C] in
/-- Between rounds the manager moves on, and `epoch_processed` stays. -/
theorem AskOrder.move {x : State n nb A C} (inv : AskOrder x) {mgr : Manager.State n nb}
    (hepoch : mgr.epoch = x.mgr.epoch) (hprocessed : mgr.epochProcessed = x.mgr.epochProcessed)
    (hask : ∀ j, mgr.point ≠ .sendAsk j)
    (hpoint : asking mgr.point = false →
      mgr.point ≠ .newAsk ∧ asking x.mgr.point = false) : AskOrder (x.setMgr mgr) where
  sorted := inv.sorted
  le := by
    rw [setMgr_mgr, hepoch]
    exact inv.le
  next := fun j hj => absurd hj (hask j)
  fresh := by
    rw [setMgr_mgr, hepoch, hprocessed]
    intro hrest hcase
    obtain ⟨hnew, hx⟩ := hpoint hrest
    exact inv.fresh hx (Or.inl (hcase.resolve_right hnew))

omit [NeZero nb] [Eacl A n] [DecidableEq C] in
theorem AskOrder.manager {x : State n nb A C} (inv : AskOrder x) {mgr : Manager.State n nb}
    (h : Manager.LocalStep x.mgr mgr) : AskOrder (x.setMgr mgr) := by
  cases h with
  | notProcessed h hp hprocessed =>
      have hfresh := inv.fresh (by simp [hp, asking]) (Or.inl hprocessed)
      exact
        { sorted := inv.sorted
          le := inv.le
          next := fun j hj => by cases hj
          fresh := fun _ _ => hfresh }
  | newAsk hp =>
      have hfresh := inv.fresh (by simp [hp, asking]) (Or.inr hp)
      exact
        { sorted := inv.sorted
          le := inv.le
          next := fun j hj => by
            cases hj
            exact ⟨Nat.le_refl _, hfresh⟩
          fresh := fun _ _ => hfresh }
  | setProcessed hp =>
      exact
        { sorted := inv.sorted
          le := inv.le
          next := fun j hj => by cases hj
          fresh := fun _ hcase => by
            rcases hcase with hprocessed | hnew
            · cases hprocessed
            · cases hnew }
  | _ =>
      apply inv.move
      · rfl
      · rfl
      · intro j hj
        cases hj
      · simp [asking, *]

omit [NeZero nb] in
theorem AskOrder.step {hash : Key → Fin n} {x y : State n nb A C} {l : Label nb C}
    (inv : AskOrder x) (h : Step hash x l y) : AskOrder y := by
  have h' := h
  cases h with
  | usrHandler2 =>
      exact
        { sorted := inv.sorted
          le := fun k hk => Nat.le_succ_of_le (inv.le k hk)
          next := fun j hj =>
            ⟨Nat.le_succ_of_le (inv.next j hj).1, (inv.next j hj).2⟩
          fresh := fun _ _ k hk => Nat.lt_succ_of_le (inv.le k hk) }
  | manager mgr h => exact inv.manager h
  | recvHelp s epoch push hp hpush =>
      have hmove : AskOrder (x.setMgr { x.mgr with point := .checkEpoch epoch }) := by
        apply inv.move
        · rfl
        · rfl
        · intro j hj
          cases hj
        · simp [asking, hp]
      exact ⟨hmove.sorted, hmove.le, hmove.next, hmove.fresh⟩
  | recvEacl s id sai loadLvl nbRcv push hp hrcv hpush =>
      have hmove : AskOrder (x.setMgr { x.mgr with point := .collect (nbRcv + 1) }) := by
        apply inv.move
        · rfl
        · rfl
        · intro j hj
          cases hj
        · simp [asking]
      exact ⟨hmove.sorted, hmove.le, hmove.next, hmove.fresh⟩
  | sendAsk epoch hp =>
      obtain ⟨hle, hlt⟩ := inv.next epoch hp
      exact
        { sorted := by
            show (x.log.asks ++ [epoch]).Pairwise (· < ·)
            rw [List.pairwise_append]
            refine ⟨inv.sorted, List.pairwise_singleton _ _, ?_⟩
            intro k hk j hj
            rw [List.mem_singleton.mp hj]
            exact hlt k hk
          le := fun k hk => by
            rcases List.mem_append.mp hk with hk | hk
            · exact inv.le k hk
            · rw [List.mem_singleton.mp hk]
              exact hle
          next := fun j hj => by cases hj
          fresh := fun hrest => by cases hrest }
  | sendMlt hp =>
      exact
        { sorted := inv.sorted
          le := inv.le
          next := fun j hj => by cases hj
          fresh := fun hrest => by cases hrest }
  | discardEacl | discardHelp | server | takePacket | replyPacket =>
      exact ⟨inv.sorted, inv.le, inv.next, inv.fresh⟩
  | _ =>
      have hsame := h'.sameRounds rfl
      constructor
      · rw [hsame.asks]
        exact inv.sorted
      · rw [hsame.asks, hsame.mgr]
        exact inv.le
      · rw [hsame.asks, hsame.mgr]
        exact inv.next
      · rw [hsame.asks, hsame.mgr]
        exact inv.fresh

theorem askOrder_of_reachable {hash : Key → Fin n} {x : State n nb A C}
    (h : Reachable hash x) : AskOrder x := by
  apply h.invariant
  · exact
      { sorted := List.Pairwise.nil
        le := fun k hk => by cases hk
        next := fun j hj => by cases hj
        fresh := fun _ _ k hk => by cases hk }
  · exact fun _ _ _ _ inv hstep => inv.step hstep

/-! ## The discipline of the rounds -/

/-- In a run in which no storage operation of a transfer fails: the epochs that the manager
has asked for increase.  When it leaves its collection loop, the `EACL`s received in the
round are one from each server.  And when it is about to send a table, every server has
taken over all earlier ones and is done with them, and no packet or answer is on its way. -/
theorem round_discipline (hash : Key → Fin n) (x : State n nb A C)
    (hx : Reach (init n nb A C) (StepsIf (step hash) NoError) x) :
    x.log.asks.Pairwise (· < ·) ∧
      (x.mgr.point = .relabelling →
        x.log.reports.length = nb ∧
          ∀ s, (x.log.reports.map Report.id).count s = 1) ∧
      (x.mgr.point = .sendMlt →
        ∀ s, Finished (x.srv s) ∧ (x.srv s).plans.length = x.log.mlts.length ∧
          (x.srv s).wire = none ∧ (x.srv s).ack = false) := by
  have hreach := reachable_of_noError hx
  have hpoll := pollInv_of_reachable hreach
  refine ⟨(askOrder_of_reachable hreach).sorted, ?_, ?_⟩
  · intro hp
    have hmode : (pollOf x).mode = .collected := by simp [pollOf, modeOf, hp]
    obtain ⟨hlength, hcount⟩ := hpoll.count_of_collected hmode
    rw [Fintype.card_fin] at hlength
    exact ⟨(List.length_map Report.id).symm.trans hlength, hcount⟩
  · intro hp s
    have hmode : (pollOf x).mode = .collected := by simp [pollOf, modeOf, hp]
    have hpending : ∀ s, (x.srv s).pending = [] := hpoll.pending_of_collected hmode
    have hfinished : ∀ s, Finished (x.srv s) := fun s => by simp [Finished, hpending s]
    obtain ⟨h, inv, rep⟩ := handover_of_run hx
    have hquiet := inv.quiet_of_settled (fun s => by
      rw [rep.srv]
      exact settled_of_finished (hfinished s)) s
    rw [rep.srv] at hquiet
    exact ⟨hfinished s, plans_of_finished (replicaInv_of_reachable hreach s) (hfinished s),
      Option.map_eq_none_iff.mp hquiet.1, hquiet.2⟩

section Sample

/-- The second epoch ends and the second `ASK` is sent before a server has looked at the
first table.  The transfer of entry 0 comes next, and only then do the servers answer. -/
def secondAskRun : List (System.Label 2 Unit) :=
  askRun ++ collectRun ++ transferRun.take 3 ++ requestRun 0 keyK (.update .empty) ++
    .usrHandler2 :: signalRun 0 ++ signalRun 1 ++
    [.managerRecv 0, .manager, .manager, .manager, .manager, .managerSend] ++
    transferRun.drop 3 ++ collectRun

end Sample

/-- The second round, whose `ASK` has waited behind the first table: the manager leaves its
collection loop, and goes on to send the second table. -/
theorem round_discipline_second_round :
    ∃ x y : SampleState, x.mgr.point = .relabelling ∧
      (∀ s, (x.log.reports.map Report.id).count s = 1) ∧
      step sampleHash .manager x = some y ∧ y.mgr.point = .sendMlt ∧ y.log.asks = [1, 2] ∧
        y.log.asks.Pairwise (· < ·) ∧ y.log.mlts.length = 1 ∧
        ∀ s, Finished (y.srv s) ∧ (y.srv s).plans.length = y.log.mlts.length ∧
          (y.srv s).wire = none ∧ (y.srv s).ack = false := by
  have hrun : ((run (guarded (step sampleHash) NoError) secondAskRun
      (init 4 2 (EaclIndedh.EaclData 4) Unit)).any fun x =>
        decide (x.mgr.point = .relabelling) &&
          (guarded (step sampleHash) NoError .manager x).any fun y =>
            decide (y.mgr.point = .sendMlt ∧ y.log.asks = [1, 2] ∧
              y.log.mlts.length = 1)) = true := by
    decide +kernel
  obtain ⟨x, hx, hp⟩ := (Option.any_eq_true _ _).mp hrun
  obtain ⟨hpoint, hy⟩ := (Bool.and_eq_true _ _).mp hp
  obtain ⟨y, hxy, hp⟩ := (Option.any_eq_true _ _).mp hy
  obtain ⟨hpoint', hasks, hmlts⟩ := of_decide_eq_true hp
  have hreach := reach_of_guarded_run _ hx
  obtain ⟨hsorted, -, hdone⟩ :=
    round_discipline sampleHash y (hreach.next (stepsIf_of_guarded ⟨_, hxy⟩))
  exact ⟨x, y, of_decide_eq_true hpoint,
    ((round_discipline sampleHash x hreach).2.1 (of_decide_eq_true hpoint)).2,
    (Option.ite_none_right_eq_some.mp hxy).2, hpoint', hasks, hsorted, hmlts, hdone hpoint'⟩

end MeDiE.System
