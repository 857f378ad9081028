import MeDiE.Launch.DhKeys

/-!
# Reports and signals under `launch_all.sh`

`SystemDh` lets signals come at any time, and then a server may report twice before
another one has reported.  A run of the script is a run of `SystemDh` in which that does
not happen: the script signals every server once in a step that rebalances, and the manager
has taken all the lists of a step when the next one begins.

The manager sets `update_needed = false` after it has sent the table.  A signal that comes
before that is forgotten, and no table and no file ends the step.
-/

namespace MeDiE.Server

variable {n nb : Nat} {A C : Type} [Eacl A n]

/-- What the threads of a server and its main loop do to the access list. -/
theorem Step.accessList {s : Fin nb} {srv srv' : State n nb A C} {l : Label}
    (h : Step s srv l srv') (hl : ∀ i, l ≠ .handler i) :
    srv'.accessList = srv.accessList ∨
      ∃ e, srv'.accessList = Eacl.incrAccess srv.accessList e ∨
        srv'.accessList = Eacl.resetAllEntry srv.accessList e := by
  cases h with
  | incrAccess client request hmain => exact Or.inr ⟨_, Or.inl rfl⟩
  | sentEacl entry toSend receiver hl => exact Or.inr ⟨entry, Or.inr rfl⟩
  | receivedEacl sender source entry left hl => exact Or.inr ⟨entry, Or.inr rfl⟩
  | calculateSai i hi | resetAccess i hi => exact absurd rfl (hl i)
  | _ => exact Or.inl rfl

end MeDiE.Server

namespace MeDiE.LaunchDh

open MeDiE.EaclDh
open MeDiE.ManagerDh
open MeDiE.Storage
open MeDiE.Verified.Transition

variable {n nb : Nat} {C : Type}

/-- The access lists, the handlers and the manager, with the lists merged for the table that
is not computed yet. -/
def State.lists (x : State n nb C) : SystemDh.State n nb where
  mgr := x.mgr
  srv s := (x.srv s).report
  merged :=
    match x.mgr.point with
    | .collect _ => x.merged
    | .relabelling => x.merged
    | _ => []

/-- Server `s` goes on. -/
theorem lists_eq {x y : State n nb C} (s : Fin nb) (srv : ServerDh.State n nb C)
    (hsrv : y.srv = Function.update x.srv s srv) (hmgr : y.mgr = x.mgr)
    (hmerged : y.merged = x.merged) : y.lists = x.lists.setSrv s srv.report := by
  unfold State.lists SystemDh.State.setSrv
  rw [hmgr, hmerged, hsrv]
  congr
  exact funext fun w =>
    Function.apply_update (fun _ => ServerDh.State.report) x.srv s srv w

/-- The rest of a server is not seen. -/
theorem lists_eq_of_report {x y : State n nb C} {s : Fin nb} {srv : ServerDh.State n nb C}
    (hsrv : y.srv = Function.update x.srv s srv) (hmgr : y.mgr = x.mgr)
    (hmerged : y.merged = x.merged) (hreport : srv.report = (x.srv s).report) :
    y.lists = x.lists := by
  rw [lists_eq s srv hsrv hmgr hmerged, hreport]
  unfold SystemDh.State.setSrv
  rw [show Function.update x.lists.srv s (x.srv s).report = x.lists.srv from
    Function.update_eq_self s x.lists.srv]

theorem handlerStep_report {srv srv' : ServerDh.State n nb C} {i : Nat}
    (h : ServerDh.HandlerStep srv i srv') : srv.report.handlerStep i = some srv'.report := by
  cases h with
  | calculateSai hi | send hi | resetAccess hi =>
      simp [SystemDh.Server.handlerStep, ServerDh.State.report, hi]

theorem localStep_eq_some {mgr mgr' : ManagerDh.State n nb} (h : LocalStep mgr mgr') :
    localStep mgr = some mgr' := by
  cases h with
  | poll hp hneeded => simp [localStep, hp, hneeded]
  | collected nbRcv hp hrcv => simp [localStep, hp, hrcv]
  | relabelling hp | sendMlt hp | clear hp => simp [localStep, hp]

/-- The lists after a step of the manager that receives nothing. -/
theorem lists_manager {x y : State n nb C} {mgr : ManagerDh.State n nb}
    (h : LocalStep x.mgr mgr) (hmgr : y.mgr = mgr)
    (hreport : ∀ s, (y.srv s).report = (x.srv s).report) (hmerged : y.merged = x.merged)
    (hpoll : x.mgr.point = .poll → x.merged = []) :
    y.lists =
      { x.lists with
        mgr := mgr
        merged := SystemDh.mergedAfter x.lists } := by
  have hmerged' : y.lists.merged = SystemDh.mergedAfter x.lists := by
    unfold State.lists SystemDh.mergedAfter
    rw [hmgr, hmerged]
    cases h with
    | poll hp => simp [hp, hpoll hp]
    | collected nbRcv hp | relabelling hp | sendMlt hp | clear hp => simp [hp]
  have hsrv : y.lists.srv = x.lists.srv := funext hreport
  calc y.lists = ⟨y.mgr, y.lists.srv, y.lists.merged⟩ := rfl
    _ = _ := by rw [hmgr, hsrv, hmerged']

section Threads

variable [NeZero nb] [DecidableEq C] {hash : Key → Fin n} {x : State n nb C}

/-- A thread or a client does to the access lists nothing, or one call for one entry. -/
theorem accessList_of_allowed {y : System.State n nb (EaclData n) C} {l : System.Label nb C}
    (hallowed : allowed x l = true) (h : System.Step hash x.view l y) :
    (∀ w, (y.srv w).accessList = (x.srv w).threads.accessList) ∨
      ∃ s e, (∀ w, w ≠ s → (y.srv w).accessList = (x.srv w).threads.accessList) ∧
        ((y.srv s).accessList = eaclIncrAccess (x.srv s).threads.accessList e ∨
          (y.srv s).accessList = eaclResetAllEntry (x.srv s).threads.accessList e) := by
  have hothers : l ≠ .managerSend → (∀ s l', l ≠ .server s l') →
      ∀ w, (y.srv w).accessList = (x.srv w).threads.accessList := by
    intro hsend hserver
    refine h.servers_of_ne (P := fun w srv => srv.accessList = (x.srv w).threads.accessList)
      hsend (fun _ => rfl) (fun s l' _ hl => absurd hl (hserver s l')) ?_
    rintro w srv srv' hext hsrv
    cases hext <;> exact hsrv
  cases l with
  | server s l' =>
      cases h with
      | server _ _ srv hs =>
          have hsrv : ((x.view.setSrv s srv).srv s).accessList = srv.accessList := by simp
          have hne : ∀ w, w ≠ s → ((x.view.setSrv s srv).srv w).accessList =
              (x.srv w).threads.accessList := fun w hw => by simp [hw, State.view]
          have hlabel : ∀ i, l' ≠ .handler i := by
            rintro i rfl
            cases hallowed
          rcases hs.accessList hlabel with hsame | ⟨e, hentry⟩
          · left
            intro w
            by_cases hw : w = s
            · subst hw
              exact hsrv.trans hsame
            · exact hne w hw
          · exact Or.inr ⟨s, e, hne, hentry.imp hsrv.trans hsrv.trans⟩
  | managerSend => cases hallowed
  | _ => exact Or.inl (hothers (by simp) (by simp))

/-- What it does to the reports is what a signal of `SystemDh` does. -/
theorem lists_threads {y : System.State n nb (EaclData n) C} {l : System.Label nb C}
    (hallowed : allowed x l = true) (h : System.Step hash x.view l y) :
    (afterThreads x l y).lists = x.lists ∨
      StepsIf SystemDh.step SystemDh.SendsOnce x.lists (afterThreads x l y).lists := by
  have hsrv : ∀ w, ((afterThreads x l y).lists.srv w) =
      { x.lists.srv w with accessList := (y.srv w).accessList } := by
    intro w
    rcases afterThreads_cases x l y with ⟨_, heq⟩ | ⟨s, _, _, _, _, heq⟩
    · rw [heq]
      rfl
    · rw [heq]
      by_cases hw : w = s
      · subst hw
        exact congrArg ServerDh.State.report (Function.update_self w _ (x.put y).srv)
      · exact congrArg ServerDh.State.report (Function.update_of_ne hw _ (x.put y).srv)
  have hrest : (afterThreads x l y).lists.mgr = x.lists.mgr ∧
      (afterThreads x l y).lists.merged = x.lists.merged := by
    rcases afterThreads_cases x l y with ⟨_, heq⟩ | ⟨s, _, _, _, _, heq⟩
    · rw [heq]
      exact ⟨rfl, rfl⟩
    · rw [heq]
      exact ⟨rfl, rfl⟩
  have hlists : ∀ srv, (afterThreads x l y).lists.srv = srv →
      (afterThreads x l y).lists = { x.lists with srv := srv } := by
    rintro srv rfl
    calc (afterThreads x l y).lists
        = ⟨(afterThreads x l y).lists.mgr, (afterThreads x l y).lists.srv,
            (afterThreads x l y).lists.merged⟩ := rfl
      _ = _ := by rw [hrest.1, hrest.2]
  rcases accessList_of_allowed hallowed h with hsame | ⟨s, e, hne, hentry⟩
  · left
    refine hlists x.lists.srv (funext fun w => ?_)
    rw [hsrv, hsame]
    rfl
  · right
    have hupdate : ∀ accessList, (y.srv s).accessList = accessList →
        (afterThreads x l y).lists =
          x.lists.setSrv s { x.lists.srv s with accessList := accessList } := by
      rintro accessList rfl
      refine hlists _ (funext fun w => ?_)
      by_cases hw : w = s
      · subst hw
        rw [Function.update_self, hsrv]
      · rw [Function.update_of_ne hw, hsrv, hne w hw]
        rfl
    rcases hentry with hincr | hreset
    · exact ⟨.incrAccess s e, trivial, by rw [hupdate _ hincr]; rfl⟩
    · exact ⟨.resetAllEntry s e, trivial, by rw [hupdate _ hreset]; rfl⟩

end Threads

/-! ## The refinement -/

theorem Books.merged_of_poll {x : State n nb C} (books : Books x) (hp : x.mgr.point = .poll)
    (hneeded : x.mgr.updateNeeded = true) : x.merged = [] := by
  cases books.round with
  | resting hrest => simp [hp, hneeded] at hrest
  | woken _ _ _ hmerged => exact hmerged
  | collecting _ hcollect => simp [hp] at hcollect
  | collected hdone => simp [hp] at hdone

/-- A handler that is about to send is the first of its server in this step. -/
theorem ServerBooks.once {x : State n nb C} {s : Fin nb} (books : ServerBooks x s) {i : Nat}
    (hi : (x.srv s).handlers[i]? = some .send) :
    (x.srv s).push = [] ∧ s ∉ x.merged := by
  have hreports := books.reports
  have hle := Bool.toNat_le (x.signalled2 s)
  have hpos : 0 < (x.srv s).handlers.countP ServerDh.reporting :=
    List.countP_pos_iff.mpr ⟨_, List.mem_of_getElem? hi, rfl⟩
  rw [ServerDh.State.reports] at hreports
  have hpush : (x.srv s).push.length = 0 := by omega
  have hcount : x.merged.count s = 0 := by omega
  exact ⟨List.length_eq_zero_iff.mp hpush, List.count_eq_zero.mp hcount⟩

section Runs

variable [NeZero nb] [DecidableEq C] [Fintype C] {hash : Key → Fin n} {distrib : Nat}
  {x y : State n nb C} {l : Label nb C}

omit [Fintype C] in
theorem lists_step (books : Books x) (h : Step hash distrib x l y) :
    y.lists = x.lists ∨ StepsIf SystemDh.step SystemDh.SendsOnce x.lists y.lists := by
  cases h with
  | threads l z hallowed h => exact lists_threads hallowed h
  | kill2 s left hp hs =>
      refine Or.inr ⟨.signal2 s, trivial, congrArg some (Eq.symm ?_)⟩
      exact lists_eq s (ServerDh.usr2Handler (x.srv s)) rfl rfl rfl
  | kill1 s left hp hs => exact Or.inl (lists_eq_of_report rfl rfl rfl rfl)
  | handler s i srv h =>
      refine Or.inr ⟨.handler s i, fun hi => Or.inr ?_, ?_⟩
      · obtain ⟨hpush, hmerged⟩ := (books.server s).once hi
        refine ⟨hpush, Or.inr fun hmem => hmerged ?_⟩
        unfold State.lists at hmem
        split at hmem
        · exact hmem
        · exact hmem
        · cases hmem
      · show ((x.srv s).report.handlerStep i).map _ = _
        rw [handlerStep_report h]
        refine congrArg some (Eq.symm ?_)
        exact lists_eq s srv rfl rfl rfl
  | createAck0 s measuring hs | createAck1 s hs =>
      exact Or.inl (lists_eq_of_report rfl rfl rfl rfl)
  | manager mgr h hp =>
      refine Or.inr ⟨.manager, trivial, ?_⟩
      show (localStep x.mgr).map _ = _
      rw [localStep_eq_some h]
      refine congrArg some (Eq.symm ?_)
      refine lists_manager h rfl (fun _ => rfl) rfl ?_
      cases h with
      | poll hpoll hneeded => exact fun _ => books.merged_of_poll hpoll hneeded
      | collected nbRcv hother | relabelling hother | sendMlt hother | clear hother =>
          simp [hother]
  | publish hp =>
      have hsend : LocalStep x.mgr { x.mgr with point := .clear } := LocalStep.sendMlt hp
      refine Or.inr ⟨.manager, trivial, ?_⟩
      show (localStep x.mgr).map _ = _
      rw [localStep_eq_some hsend]
      refine congrArg some (Eq.symm ?_)
      exact lists_manager hsend rfl (fun _ => rfl) rfl (by simp [hp])
  | managerRecv s nbRcv sai push hp hrcv hpush =>
      refine Or.inr ⟨.managerRecv s, trivial, ?_⟩
      have hrecv : recvStep x.mgr sai = some
          { x.mgr with
            globalList := managerMergeEacl x.mgr.globalList sai
            point := .collect (nbRcv + 1) } := by
        simp [recvStep, hp, hrcv]
      have hstep : SystemDh.step (.managerRecv s) x.lists = some
          { mgr :=
              { x.mgr with
                globalList := managerMergeEacl x.mgr.globalList sai
                point := .collect (nbRcv + 1) }
            srv := Function.update x.lists.srv s { x.lists.srv s with push := push }
            merged := x.lists.merged ++ [s] } := by
        simp [SystemDh.step, State.lists, ServerDh.State.report, hpush, hrecv]
      rw [hstep]
      have hmerged : x.lists.merged = x.merged := by simp [State.lists, hp]
      have hset : (x.setSrv s { x.srv s with push := push }).lists =
          x.lists.setSrv s { x.lists.srv s with push := push } :=
        lists_eq s { x.srv s with push := push } rfl rfl rfl
      rw [hmerged, show Function.update x.lists.srv s { x.lists.srv s with push := push } =
        (x.setSrv s { x.srv s with push := push }).lists.srv by rw [hset]; rfl]
      rfl
  | signalManager hp => exact Or.inr ⟨.usrHandler2, trivial, rfl⟩
  | remove hp =>
      -- the manager rests, and then nothing is on record
      left
      rcases (books.over hp).1.1 with hclear | ⟨hpoll, _⟩
      · simp [State.lists, hclear]
      · simp [State.lists, hpoll]
  | _ => exact Or.inl rfl

end Runs

variable [NeZero nb] [DecidableEq C] [Fintype C]

/-- The script waits for the first file of a step that no manager works for. -/
structure Lost (x : State n nb C) : Prop where
  point : x.point = .wait 0
  turn : x.turn = 1
  mgr : x.mgr.point = .clear ∨ x.mgr.point = .poll ∧ x.mgr.updateNeeded = false
  sent : x.sent = false

omit [NeZero nb] [DecidableEq C] [Fintype C] in
/-- Nobody has created a file, and nobody will. -/
theorem Lost.no_file {x : State n nb C} (lost : Lost x) (books : Books x) (s : Fin nb) :
    x.ack0 s = false ∧ x.ack1 s = false := by
  have hs := books.server s
  have hmeasures := hs.measures
  rw [show x.signalled1 s = false by simp [State.signalled1, lost.point, Point.waits, lost.turn]]
    at hmeasures
  refine ⟨?_, (hs.pending_of_not_sent lost.sent).2.2⟩
  cases hack : x.ack0 s with
  | false => rfl
  | true => simp [hack] at hmeasures

omit [Fintype C] in
/-- No step leads out of it or sends a table. -/
theorem Lost.step {hash : Key → Fin n} {distrib : Nat} {x y : State n nb C} {l : Label nb C}
    (lost : Lost x) (books : Books x) (h : Step hash distrib x l y) :
    Lost y ∧ y.mlts = x.mlts := by
  have hpoint := lost.point
  cases h with
  | threads l z hallowed h =>
      rcases afterThreads_cases x l z with ⟨_, heq⟩ | ⟨s, _, _, _, _, heq⟩
      · rw [heq]
        exact ⟨⟨lost.point, lost.turn, lost.mgr, lost.sent⟩, rfl⟩
      · rw [heq]
        exact ⟨⟨lost.point, lost.turn, lost.mgr, lost.sent⟩, rfl⟩
  | manager mgr h hp =>
      refine ⟨⟨lost.point, lost.turn, ?_, lost.sent⟩, rfl⟩
      cases h with
      | clear hclear => exact Or.inr ⟨rfl, rfl⟩
      | poll hpoll hneeded => exact absurd lost.mgr (by simp [hpoll, hneeded])
      | collected nbRcv hother | relabelling hother | sendMlt hother =>
          exact absurd lost.mgr (by simp [hother])
  | publish hp => exact absurd lost.mgr (by simp [hp])
  | managerRecv s nbRcv sai push hp => exact absurd lost.mgr (by simp [hp])
  | found i hi hp hack =>
      obtain ⟨hack0, hack1⟩ := lost.no_file books ⟨i, hi⟩
      simp [hack0, hack1] at hack
  | foundAll i hi hp =>
      rw [hpoint] at hp
      cases hp
      exact absurd (Nat.le_zero.mp hi) (NeZero.ne nb)
  | startClient | handler | createAck0 | createAck1 =>
      exact ⟨⟨lost.point, lost.turn, lost.mgr, lost.sent⟩, rfl⟩
  | kill2 s left hp | kill1 s left hp => simp [hpoint] at hp
  | rebalance hp | measure hp | signalled2 hp | signalManager hp | signalled1 hp | searchFound hp
  | searchNone hp | found1 i hi hp | found1All i hi hp | remove hp => simp [hpoint] at hp

/-- Let the script signal the manager when that has sent the table of the step before and
not yet reset its flag.  Then the script waits for ever: whatever the others do from there,
there is no file, no other table and no next step. -/
theorem signal_lost (hash : Key → Fin n) (distrib : Nat) (x y z : State n nb C)
    (hx : Reach (init n nb C) (Steps (step hash distrib)) x)
    (hpoint : x.point = .signalManager) (hmgr : x.mgr.point = .clear)
    (hy : step hash distrib .script x = some y) (hz : Reach y (Steps (step hash distrib)) z) :
    z.point = .wait 0 ∧ z.mlts = x.mlts ∧ ∀ s, z.ack0 s = false ∧ z.ack1 s = false := by
  have inv := inv_of_run (hx.next ⟨.script, hy⟩)
  have hsent : x.sent = false := (inv_of_run hx).books.not_sent (by rw [hpoint]; rfl)
  have hlost : Lost y ∧ y.mlts = x.mlts := by
    simp only [step, scriptStep, hpoint, Option.some.injEq] at hy
    rw [← hy]
    exact ⟨⟨rfl, rfl, Or.inl hmgr, hsent⟩, rfl⟩
  have hrun : Inv hash z ∧ Lost z ∧ z.mlts = x.mlts := by
    apply hz.invariant (I := fun z => Inv hash z ∧ Lost z ∧ z.mlts = x.mlts) ⟨inv, hlost⟩
    rintro z w _ ⟨inv, lost, hmlts⟩ ⟨l, hl⟩
    have hstep := step_cases hl
    obtain ⟨lost', hmlts'⟩ := lost.step inv.books hstep
    exact ⟨inv.next hstep, lost', hmlts'.trans hmlts⟩
  exact ⟨hrun.2.1.point, hrun.2.2, hrun.2.1.no_file hrun.1.books⟩

/-- The servers take over a table while the manager has not reset its flag, and are signalled
again. -/
def lateRun : List (Label 2 Unit) :=
  [.manager, .manager] ++ moveRun.drop 3 ++ [.script, .kill 0, .kill 1, .script]

/-- The second step is waited for in vain if the manager is late in the first. -/
theorem signal_lost_second_step :
    ∃ y : State 4 2 Unit, y.mlts.length = 1 ∧
      ∀ z, Reach y (Steps (step System.sampleHash 1)) z →
        z.point = .wait 0 ∧ z.mlts.length = 1 := by
  have hrun : ((run (step System.sampleHash 1) (requestsRun ++ collectRun ++ lateRun)
      (init 4 2 Unit)).any fun x => decide (x.point = .signalManager ∧ x.mgr.point = .clear ∧
        x.mlts.length = 1)) = true := by
    decide +kernel
  obtain ⟨x, hx, hp⟩ := (Option.any_eq_true _ _).mp hrun
  obtain ⟨hpoint, hmgr, hmlts⟩ := of_decide_eq_true hp
  obtain ⟨y, hy⟩ : ∃ y, step System.sampleHash 1 .script x = some y := by
    simp [step, scriptStep, hpoint]
  have hlost := fun z =>
    signal_lost System.sampleHash 1 x y z (reach_of_run _ Reach.start hx) hpoint hmgr hy
  refine ⟨y, ?_, fun z hz => ?_⟩
  · rw [(hlost y Reach.start).2.1]
    exact hmlts
  · obtain ⟨hwait, hsame, _⟩ := hlost z hz
    exact ⟨hwait, hsame ▸ hmlts⟩

end MeDiE.LaunchDh
