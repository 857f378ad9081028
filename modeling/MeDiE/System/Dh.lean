import MeDiE.Manager.MainDh
import MeDiE.Verified.Transition

/-!
# Reports of the servers to `manager_dh.c`

A server of `distribution_dh_s.c` sends its access list whenever it gets a
`SIGUSR2`; the manager takes as many lists as there are servers.  Nothing keeps a
server that is signalled twice from giving two of them, and a signal to the manager
itself counts as a list when it ends a receive.

What a server does with a new table reaches its access list as
`eacl_reset_all_entry` alone, which may come at any time here.  `eacl_calculate_sai` is one
step.  In C other threads may come between its accesses to the list, but nothing is said
here of the indices in a report, only of whose list it is.
-/

namespace MeDiE.EaclDh

/-- `struct eacl` of `eacl_dh.h`. -/
structure EaclData (n : Nat) where
  accessCount : Fin n → Nat
  sai : Fin n → Nat

variable {n : Nat}

/-- `eacl_init`. -/
def eaclInit : EaclData n where
  accessCount _ := 0
  sai _ := 0

/-- `eacl_incr_access`. -/
def eaclIncrAccess (self : EaclData n) (index : Fin n) : EaclData n :=
  { self with
    accessCount := Function.update self.accessCount index
      ((self.accessCount index + 1) % 2 ^ 32) }

/-- `eacl_reset_access`. -/
def eaclResetAccess (self : EaclData n) : EaclData n :=
  { self with accessCount := fun _ => 0 }

/-- `eacl_reset_all_entry`. -/
def eaclResetAllEntry (self : EaclData n) (index : Fin n) : EaclData n where
  accessCount := Function.update self.accessCount index 0
  sai := Function.update self.sai index 0

/-- `eacl_calculate_sai`, with `ALPHA = 0.5`. -/
def eaclCalculateSai (self : EaclData n) : EaclData n :=
  { self with sai := fun i => (self.sai i + self.accessCount i) / 2 }

end MeDiE.EaclDh

namespace MeDiE.SystemDh

open MeDiE.EaclDh
open MeDiE.ManagerDh
open MeDiE.Verified.Transition

/-- Points of `distribution_signal2_action`, by the call that comes next. -/
inductive Handler
  | calculateSai
  | send
  | resetAccess
  deriving DecidableEq

/-- A server.  `push` are the messages on its socket to the manager. -/
structure Server (n : Nat) where
  accessList : EaclData n
  handlers : List Handler
  push : List (Fin n → Nat)

/-- The system.  `merged` is not in the source: it records which servers the lists
merged since the last `manager_calculate_relab` are from. -/
structure State (n nb : Nat) where
  mgr : ManagerDh.State n nb
  srv : Fin nb → Server n
  merged : List (Fin nb)

variable {n nb : Nat}

/-- `distribution_init` and `manager_init`. -/
def init (n nb : Nat) [NeZero nb] : State n nb where
  mgr := State.init n nb
  srv _ :=
    { accessList := eaclInit
      handlers := []
      push := [] }
  merged := []

/-- The next call of handler `i`. -/
def Server.handlerStep (srv : Server n) (i : Nat) : Option (Server n) :=
  match srv.handlers[i]? with
  | some .calculateSai =>
      some { srv with
        accessList := eaclCalculateSai srv.accessList
        handlers := srv.handlers.set i .send }
  | some .send =>
      some { srv with
        push := srv.push ++ [srv.accessList.sai]
        handlers := srv.handlers.set i .resetAccess }
  | some .resetAccess =>
      some { srv with
        accessList := eaclResetAccess srv.accessList
        handlers := srv.handlers.eraseIdx i }
  | none => none

/-- What can happen next. -/
inductive Label (n nb : Nat)
  | usrHandler2
  | manager
  | managerRecv (s : Fin nb)
  | managerRecvNull
  | signal2 (s : Fin nb)
  | handler (s : Fin nb) (i : Nat)
  | incrAccess (s : Fin nb) (e : Fin n)
  | resetAllEntry (s : Fin nb) (e : Fin n)

/-- Server `s` goes on. -/
def State.setSrv (x : State n nb) (s : Fin nb) (srv : Server n) : State n nb :=
  { x with srv := Function.update x.srv s srv }

/-- The lists on record after a step of the manager that receives nothing:
`manager_calculate_relab` starts a new record. -/
def mergedAfter (x : State n nb) : List (Fin nb) :=
  if x.mgr.point = .relabelling then [] else x.merged

/-- One step of the system. -/
def step (l : Label n nb) (x : State n nb) : Option (State n nb) :=
  match l with
  | .usrHandler2 => some { x with mgr := usrHandler2 x.mgr }
  | .manager =>
      (localStep x.mgr).map fun mgr => { x with mgr := mgr, merged := mergedAfter x }
  | .managerRecv s =>
      match (x.srv s).push with
      | [] => none
      | sai :: push =>
          (recvStep x.mgr sai).map fun mgr =>
            { mgr := mgr
              srv := Function.update x.srv s { x.srv s with push := push }
              merged := x.merged ++ [s] }
  | .managerRecvNull => (recvNull x.mgr).map fun mgr => { x with mgr := mgr }
  | .signal2 s =>
      some (x.setSrv s { x.srv s with handlers := (x.srv s).handlers ++ [.calculateSai] })
  | .handler s i => ((x.srv s).handlerStep i).map (x.setSrv s)
  | .incrAccess s e =>
      some (x.setSrv s { x.srv s with
        accessList := eaclIncrAccess (x.srv s).accessList e })
  | .resetAllEntry s e =>
      some (x.setSrv s { x.srv s with
        accessList := eaclResetAllEntry (x.srv s).accessList e })

/-! ## What a step does to the reports -/

/-- The lists waiting at the sockets to the manager, by sender. -/
def State.push (x : State n nb) (s : Fin nb) : List (Fin n → Nat) := (x.srv s).push

/-- The cases of `step`, as far as the manager and the reports see them. -/
inductive StepCases (x y : State n nb) : Label n nb → Prop
  | quiet (l : Label n nb) (hpoint : y.mgr.point = x.mgr.point)
      (hmerged : y.merged = x.merged) (hpush : y.push = x.push) : StepCases x y l
  | manager (mgr : ManagerDh.State n nb) (hstep : LocalStep x.mgr mgr)
      (hmgr : y.mgr = mgr) (hmerged : y.merged = mergedAfter x) (hpush : y.push = x.push) :
      StepCases x y .manager
  | merge (s : Fin nb) (nbRcv : Nat) (sai : Fin n → Nat) (push : List (Fin n → Nat))
      (hp : x.mgr.point = .collect nbRcv) (hrcv : nbRcv < nb)
      (hpush : x.push s = sai :: push) (hp' : y.mgr.point = .collect (nbRcv + 1))
      (hmerged : y.merged = x.merged ++ [s])
      (hpush' : y.push = Function.update x.push s push) : StepCases x y (.managerRecv s)
  | recvNull (nbRcv : Nat) (hp : x.mgr.point = .collect nbRcv) (hrcv : nbRcv < nb)
      (hp' : y.mgr.point = .collect (nbRcv + 1)) (hmerged : y.merged = x.merged)
      (hpush : y.push = x.push) : StepCases x y .managerRecvNull
  | send (s : Fin nb) (i : Nat) (sai : Fin n → Nat)
      (hi : (x.srv s).handlers[i]? = some .send) (hpoint : y.mgr.point = x.mgr.point)
      (hmerged : y.merged = x.merged)
      (hpush : y.push = Function.update x.push s (x.push s ++ [sai])) :
      StepCases x y (.handler s i)

theorem push_setSrv (x : State n nb) (s : Fin nb) (srv : Server n) :
    (x.setSrv s srv).push = Function.update x.push s srv.push := by
  funext w
  by_cases hw : w = s
  · subst hw
    simp [State.push, State.setSrv]
  · simp [State.push, State.setSrv, hw]

/-- A server that keeps its socket is not seen. -/
theorem stepCases_setSrv {x : State n nb} {s : Fin nb} {srv : Server n} (l : Label n nb)
    (h : srv.push = x.push s) : StepCases x (x.setSrv s srv) l := by
  have hpush : (x.setSrv s srv).push = x.push := by
    rw [push_setSrv, h, Function.update_eq_self]
  exact StepCases.quiet l rfl rfl hpush

theorem stepCases_handler {x : State n nb} {s : Fin nb} {i : Nat} {srv : Server n}
    (h : (x.srv s).handlerStep i = some srv) :
    StepCases x (x.setSrv s srv) (.handler s i) := by
  unfold Server.handlerStep at h
  split at h
  · cases h
    exact stepCases_setSrv _ rfl
  · rename_i hi
    cases h
    exact StepCases.send s i _ hi rfl rfl (push_setSrv x s _)
  · cases h
    exact stepCases_setSrv _ rfl
  · cases h

theorem step_cases {x y : State n nb} {l : Label n nb} (h : step l x = some y) :
    StepCases x y l := by
  cases l with
  | usrHandler2 =>
      cases h
      exact StepCases.quiet _ rfl rfl rfl
  | manager =>
      obtain ⟨mgr, hmgr, rfl⟩ := Option.map_eq_some_iff.mp h
      exact StepCases.manager mgr (localStep_cases hmgr) rfl rfl rfl
  | managerRecv s =>
      simp only [step] at h
      split at h
      · cases h
      · rename_i sai push hpush
        obtain ⟨mgr, hmgr, rfl⟩ := Option.map_eq_some_iff.mp h
        obtain ⟨nbRcv, hp, hrcv, rfl⟩ := recvStep_cases hmgr
        exact StepCases.merge s nbRcv sai push hp hrcv hpush rfl rfl (push_setSrv x s _)
  | managerRecvNull =>
      obtain ⟨mgr, hmgr, rfl⟩ := Option.map_eq_some_iff.mp h
      obtain ⟨nbRcv, hp, hrcv, rfl⟩ := recvNull_cases hmgr
      exact StepCases.recvNull nbRcv hp hrcv rfl rfl rfl
  | signal2 s =>
      cases h
      exact stepCases_setSrv _ rfl
  | handler s i =>
      obtain ⟨srv, hsrv, rfl⟩ := Option.map_eq_some_iff.mp h
      exact stepCases_handler hsrv
  | incrAccess s e =>
      cases h
      exact stepCases_setSrv _ rfl
  | resetAllEntry s e =>
      cases h
      exact stepCases_setSrv _ rfl

/-! ## Runs in which no server reports twice -/

/-- A server sends a list only if no earlier one of it waits or has been merged since
the last `manager_calculate_relab`; and no signal ends a `zmsg_recv` of the manager.  A
single server has nobody to be taken for. -/
def SendsOnce (l : Label n nb) (x : State n nb) : Prop :=
  match l with
  | .handler s i =>
      (x.srv s).handlers[i]? = some .send →
        nb = 1 ∨ x.push s = [] ∧ (x.mgr.point = .relabelling ∨ s ∉ x.merged)
  | .managerRecvNull => False
  | _ => True

instance (l : Label n nb) (x : State n nb) : Decidable (SendsOnce l x) := by
  cases l <;> dsimp only [SendsOnce] <;> infer_instance

/-- As many lists are on record as the receiving loop has counted. -/
def Counted (x : State n nb) : Prop :=
  match x.mgr.point with
  | .collect nbRcv => x.merged.length = nbRcv ∧ nbRcv ≤ nb
  | .relabelling => x.merged.length = nb
  | _ => x.merged = []

theorem counted_step {x y : State n nb} {l : Label n nb} (inv : Counted x)
    (hgood : SendsOnce l x) (h : step l x = some y) : Counted y := by
  cases step_cases h with
  | quiet _ hpoint hmerged _ =>
      rw [Counted, hpoint, hmerged]
      exact inv
  | send s i sai _ hpoint hmerged _ =>
      rw [Counted, hpoint, hmerged]
      exact inv
  | merge s nbRcv sai push hp hrcv _ hp' hmerged _ =>
      rw [Counted, hp] at inv
      rw [Counted, hp', hmerged]
      simp only [List.length_append, List.length_singleton]
      omega
  | recvNull nbRcv hp hrcv hp' hmerged _ => exact hgood.elim
  | manager mgr hstep hmgr hmerged _ =>
      rw [Counted, hmgr, hmerged, mergedAfter]
      rw [Counted] at inv
      cases hstep with
      | poll hp _ =>
          rw [hp] at inv
          simp [hp, inv]
      | collected nbRcv hp hrcv =>
          rw [hp] at inv
          simp only [hp, reduceCtorEq, if_false]
          omega
      | relabelling hp => simp [hp]
      | sendMlt hp =>
          rw [hp] at inv
          simpa [hp] using inv
      | clear hp =>
          rw [hp] at inv
          simpa [hp] using inv

/-- Every list waiting or merged is the only one of its server. -/
structure OnceInv (x : State n nb) : Prop where
  merged : x.merged.Nodup
  push : ∀ s, (x.push s).length ≤ 1
  fresh : x.mgr.point ≠ .relabelling → ∀ s ∈ x.merged, x.push s = []

theorem onceInv_step {x y : State n nb} {l : Label n nb} (hnb : nb ≠ 1)
    (inv : OnceInv x) (hgood : SendsOnce l x) (h : step l x = some y) : OnceInv y := by
  cases step_cases h with
  | quiet _ hpoint hmerged hpush =>
      exact ⟨hmerged ▸ inv.merged, hpush ▸ inv.push, hpoint ▸ hmerged ▸ hpush ▸ inv.fresh⟩
  | manager mgr hstep hmgr hmerged hpush =>
      by_cases hp : x.mgr.point = .relabelling
      · rw [mergedAfter, if_pos hp] at hmerged
        exact
          { merged := hmerged ▸ List.nodup_nil
            push := hpush ▸ inv.push
            fresh := fun _ s hs => by simp [hmerged] at hs }
      · rw [mergedAfter, if_neg hp] at hmerged
        exact
          { merged := hmerged ▸ inv.merged
            push := hpush ▸ inv.push
            fresh := fun _ => hmerged ▸ hpush ▸ inv.fresh hp }
  | merge s nbRcv sai push hp hrcv hpush hp' hmerged hpush' =>
      have hcollect : x.mgr.point ≠ .relabelling := by simp [hp]
      have hs : s ∉ x.merged := by
        intro hs
        rw [inv.fresh hcollect s hs] at hpush
        cases hpush
      have hnil : push = [] := by
        have hone := inv.push s
        rw [hpush, List.length_cons] at hone
        exact List.length_eq_zero_iff.mp (by omega)
      subst hnil
      exact
        { merged := by
            rw [hmerged]
            exact inv.merged.append (List.nodup_singleton s)
              (List.disjoint_singleton.mpr hs)
          push := fun w => by
            rw [hpush']
            by_cases hw : w = s
            · simp [hw]
            · simpa [hw] using inv.push w
          fresh := fun _ w hw => by
            rw [hpush']
            rw [hmerged, List.mem_append, List.mem_singleton] at hw
            by_cases hws : w = s
            · simp [hws]
            · simpa [hws] using inv.fresh hcollect w (hw.resolve_right hws) }
  | recvNull nbRcv hp hrcv hp' hmerged hpush => exact hgood.elim
  | send s i sai hi hpoint hmerged hpush =>
      obtain ⟨hnil, hfree⟩ := (hgood hi).resolve_left hnb
      exact
        { merged := hmerged ▸ inv.merged
          push := fun w => by
            rw [hpush]
            by_cases hw : w = s
            · simp [hw, hnil]
            · simpa [hw] using inv.push w
          fresh := fun hp w hw => by
            rw [hpoint] at hp
            rw [hmerged] at hw
            rw [hpush]
            have hws : w ≠ s := fun heq => (hfree.resolve_left hp) (heq ▸ hw)
            simpa [hws] using inv.fresh hp w hw }

theorem onceInv_of_run [NeZero nb] (hnb : nb ≠ 1) {x : State n nb}
    (hx : Reach (init n nb) (StepsIf step SendsOnce) x) : OnceInv x := by
  apply hx.invariant
  · exact
      { merged := List.nodup_nil
        push := fun _ => Nat.zero_le 1
        fresh := fun _ s hs => by cases hs }
  · rintro x y _ inv ⟨l, hgood, h⟩
    exact onceInv_step hnb inv hgood h

theorem counted_of_run [NeZero nb] {x : State n nb}
    (hx : Reach (init n nb) (StepsIf step SendsOnce) x) : Counted x := by
  apply hx.invariant
  · exact rfl
  · rintro x y _ inv ⟨l, hgood, h⟩
    exact counted_step inv hgood h

/-- In a run in which no server sends a second list before the next
`manager_calculate_relab` and no receive of the manager is interrupted: whenever
`manager_calculate_relab` is about to run, the lists merged since the last time are one
from each server. -/
theorem relab_one_report_each [NeZero nb] (x : State n nb)
    (hx : Reach (init n nb) (StepsIf step SendsOnce) x)
    (hp : x.mgr.point = .relabelling) : x.merged.length = nb ∧ x.merged.Nodup := by
  have hcounted := counted_of_run hx
  rw [Counted, hp] at hcounted
  by_cases hnb : nb = 1
  · refine ⟨hcounted, List.nodup_iff_count_le_one.mpr fun s => ?_⟩
    have hcount := List.count_le_length (a := s) (l := x.merged)
    omega
  · exact ⟨hcounted, (onceInv_of_run hnb hx).merged⟩

/-! ## Three runs -/

/-- Server `s` gets a `SIGUSR2` and its handler runs to the end. -/
def signalRun (s : Fin 2) : List (Label 4 2) :=
  [.signal2 s, .handler s 0, .handler s 0, .handler s 0]

/-- The manager gets its `SIGUSR2`, polls the flag and receives two lists. -/
def collectRun (s t : Fin 2) : List (Label 4 2) :=
  [.usrHandler2, .manager, .managerRecv s, .managerRecv t, .manager]

/-- A round in which every server is signalled once. -/
theorem relab_one_report_each_first_round :
    ∃ x : State 4 2, x.mgr.point = .relabelling ∧ x.merged.length = 2 ∧ x.merged.Nodup := by
  have hrun : ((run (guarded step SendsOnce)
      (signalRun 0 ++ signalRun 1 ++ collectRun 1 0) (init 4 2)).any
        fun x => decide (x.mgr.point = .relabelling)) = true := by
    decide +kernel
  obtain ⟨x, hx, hp⟩ := (Option.any_eq_true _ _).mp hrun
  have hp' := of_decide_eq_true hp
  exact ⟨x, hp', relab_one_report_each x (reach_of_guarded_run _ hx) hp'⟩

/-- Server 0 is signalled twice before server 1 is signalled at all. -/
theorem exists_relab_two_reports :
    ∃ x : State 4 2, Reach (init 4 2) (Steps step) x ∧ x.mgr.point = .relabelling ∧
      ¬ x.merged.Nodup := by
  have hrun : ((run step (signalRun 0 ++ signalRun 0 ++ collectRun 0 0) (init 4 2)).any
      fun x => decide (x.mgr.point = .relabelling ∧ ¬ x.merged.Nodup)) = true := by
    decide +kernel
  obtain ⟨x, hx, hp⟩ := (Option.any_eq_true _ _).mp hrun
  exact ⟨x, reach_of_run _ Reach.start hx, of_decide_eq_true hp⟩

/-- Every server is signalled once, and the manager a second time while it waits for the
second list. -/
theorem exists_relab_report_missing :
    ∃ x : State 4 2, Reach (init 4 2) (Steps step) x ∧ x.mgr.point = .relabelling ∧
      x.merged.length < 2 := by
  have hrun : ((run step (signalRun 0 ++
      [.usrHandler2, .manager, .managerRecv 0, .managerRecvNull, .manager]) (init 4 2)).any
      fun x => decide (x.mgr.point = .relabelling ∧ x.merged.length < 2)) = true := by
    decide +kernel
  obtain ⟨x, hx, hp⟩ := (Option.any_eq_true _ _).mp hrun
  exact ⟨x, reach_of_run _ Reach.start hx, of_decide_eq_true hp⟩

end MeDiE.SystemDh
