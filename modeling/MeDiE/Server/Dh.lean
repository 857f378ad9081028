import MeDiE.Server.Step
import MeDiE.System.Dh

/-!
# A server of `distribution_dh_s.c`

The file has `cut`, `load_args_sort`, `thread_load_sender`, `thread_load_receiver`,
`distribution_post_receive` and `distribution_pre_send` word for word as
`distribution_indedh_s.c` has them, and `thread_mlt_updater` does with a table what
`thread_manager_listener` does with an `MLT_MSG`, but for the frame of the mean load.  So
the threads and the main loop are those of `Server.State`; its fields for epochs and
loads, its handlers and its socket to the manager are not used.

What is different is the access list, what a `SIGUSR2` does, and the ack file that
`thread_mlt_updater` creates after every table.
-/

namespace MeDiE.EaclDh

variable {n : Nat}

/-- `sai[index] = value`. -/
def setSai (self : EaclData n) (index : Fin n) (value : Nat) : EaclData n :=
  { self with sai := Function.update self.sai index value }

theorem foldl_setSai (self : EaclData n) {l : List (Fin n)} (hl : l.Nodup) :
    l.foldl (fun a i => setSai a i ((a.sai i + a.accessCount i) / 2)) self =
      { self with
        sai := fun i =>
          if i ∈ l then (self.sai i + self.accessCount i) / 2 else self.sai i } := by
  induction l using List.reverseRecOn with
  | nil => simp
  | append_singleton l i ih =>
      obtain ⟨hl, _, hdisjoint⟩ := List.nodup_append.mp hl
      have hi : i ∉ l := fun hmem => hdisjoint i hmem i List.mem_cons_self rfl
      rw [List.foldl_concat, ih hl,
        ← update_fill self.sai (fun i => (self.sai i + self.accessCount i) / 2)]
      simp [setSai, hi]

/-- The functions of `eacl_dh.h`, which has no load level. -/
instance : Eacl (EaclData n) n where
  eaclInit := eaclInit
  incrAccess := eaclIncrAccess
  resetAccess := eaclResetAccess
  resetAllEntry := eaclResetAllEntry
  calculateSai := eaclCalculateSai
  sai := EaclData.sai
  readLoadLvl _ := 0
  clearLoad self := self
  oldIndex := EaclData.sai
  accessCount := EaclData.accessCount
  setSai := setSai
  addLoad self _ := self
  calculateSai_eq self := by
    rw [foldl_setSai self (List.nodup_finRange n)]
    simp [eaclCalculateSai]

end MeDiE.EaclDh

namespace MeDiE.ServerDh

open MeDiE.EaclDh

/-- A server.  `measuring` counts the handlers of `SIGUSR1` that are about to create
`vmXUSR-0`, and `acking` says that `thread_mlt_updater` is about to create `vmXUSR-1`. -/
structure State (n nb : Nat) (C : Type) where
  threads : Server.State n nb (EaclData n) C
  handlers : List SystemDh.Handler
  push : List (Fin n → Nat)
  measuring : Nat
  acking : Bool

variable {n nb : Nat} {C : Type}

/-- `distribution_init`. -/
def State.init (n nb : Nat) [NeZero nb] (C : Type) : State n nb C where
  threads := Server.State.init n nb (EaclData n) C
  handlers := []
  push := []
  measuring := 0
  acking := false

/-- `usr1_handler` is called. -/
def usr1Handler (srv : State n nb C) : State n nb C :=
  { srv with measuring := srv.measuring + 1 }

/-- `usr2_handler` is called. -/
def usr2Handler (srv : State n nb C) : State n nb C :=
  { srv with handlers := srv.handlers ++ [.calculateSai] }

/-- What the handlers of `SIGUSR2` work on. -/
def State.report (srv : State n nb C) : SystemDh.Server n where
  accessList := srv.threads.accessList
  handlers := srv.handlers
  push := srv.push

def State.setReport (srv : State n nb C) (report : SystemDh.Server n) : State n nb C :=
  { srv with
    threads := { srv.threads with accessList := report.accessList }
    handlers := report.handlers
    push := report.push }

/-- The next call of handler `i`, in `distribution_signal2_action`. -/
def handlerStep (srv : State n nb C) (i : Nat) : Option (State n nb C) :=
  (srv.report.handlerStep i).map srv.setReport

/-- The cases of `handlerStep`. -/
inductive HandlerStep (srv : State n nb C) (i : Nat) : State n nb C → Prop
  | calculateSai (hi : srv.handlers[i]? = some .calculateSai) :
      HandlerStep srv i
        { srv with
          threads := { srv.threads with
            accessList := eaclCalculateSai srv.threads.accessList }
          handlers := srv.handlers.set i .send }
  | send (hi : srv.handlers[i]? = some .send) :
      HandlerStep srv i
        { srv with
          push := srv.push ++ [srv.threads.accessList.sai]
          handlers := srv.handlers.set i .resetAccess }
  | resetAccess (hi : srv.handlers[i]? = some .resetAccess) :
      HandlerStep srv i
        { srv with
          threads := { srv.threads with
            accessList := eaclResetAccess srv.threads.accessList }
          handlers := srv.handlers.eraseIdx i }

theorem handlerStep_cases {srv srv' : State n nb C} {i : Nat}
    (h : handlerStep srv i = some srv') : HandlerStep srv i srv' := by
  obtain ⟨report, hreport, rfl⟩ := Option.map_eq_some_iff.mp h
  unfold SystemDh.Server.handlerStep at hreport
  split at hreport
  · cases hreport
    exact HandlerStep.calculateSai ‹_›
  · cases hreport
    exact HandlerStep.send ‹_›
  · cases hreport
    exact HandlerStep.resetAccess ‹_›
  · cases hreport

/-! ## The reports of a server -/

/-- The handler has not put its list on the socket. -/
def reporting : SystemDh.Handler → Bool
  | .calculateSai => true
  | .send => true
  | .resetAccess => false

/-- How many lists of the server are on its socket or will be put there by a handler that
is under way. -/
def State.reports (srv : State n nb C) : Nat :=
  srv.push.length + srv.handlers.countP reporting

/-- One handler and the others. -/
theorem countP_handlers {handlers : List SystemDh.Handler} {i : Nat} {a : SystemDh.Handler}
    (hi : handlers[i]? = some a) (b : SystemDh.Handler) :
    handlers.countP reporting =
        (handlers.eraseIdx i).countP reporting + (if reporting a then 1 else 0) ∧
      (handlers.set i b).countP reporting =
        (handlers.eraseIdx i).countP reporting + if reporting b then 1 else 0 := by
  obtain ⟨hlt, rfl⟩ := List.getElem?_eq_some_iff.mp hi
  rw [← List.countP_cons, ← List.countP_cons]
  exact ⟨((List.getElem_cons_eraseIdx_perm hlt).countP_eq reporting).symm,
    (List.set_perm_cons_eraseIdx hlt b).countP_eq reporting⟩

/-- The handlers put one list on the socket for each signal. -/
theorem HandlerStep.reports {srv srv' : State n nb C} {i : Nat} (h : HandlerStep srv i srv') :
    srv'.reports = srv.reports := by
  cases h with
  | calculateSai hi =>
      obtain ⟨hold, hnew⟩ := countP_handlers hi .send
      simp [State.reports, hold, hnew, reporting]
  | send hi =>
      obtain ⟨hold, hnew⟩ := countP_handlers hi .resetAccess
      simp [State.reports, hold, hnew, reporting, Nat.add_assoc, Nat.add_comm 1]
  | resetAccess hi =>
      obtain ⟨hold, _⟩ := countP_handlers hi .resetAccess
      simp [State.reports, hold, reporting]

/-- The rest of the server does not see the handlers of `SIGUSR2`, but in the access list. -/
theorem HandlerStep.same {srv srv' : State n nb C} {i : Nat} (h : HandlerStep srv i srv') :
    srv'.measuring = srv.measuring ∧ srv'.acking = srv.acking ∧
      ∃ accessList, srv'.threads =
        { srv.threads with accessList := accessList } := by
  cases h with
  | calculateSai hi => exact ⟨rfl, rfl, _, rfl⟩
  | send hi => exact ⟨rfl, rfl, srv.threads.accessList, rfl⟩
  | resetAccess hi => exact ⟨rfl, rfl, _, rfl⟩

theorem reports_usr2Handler (srv : State n nb C) :
    (usr2Handler srv).reports = srv.reports + 1 := by
  simp [State.reports, usr2Handler, reporting, Nat.add_assoc]

end MeDiE.ServerDh
