import MeDiE.Launch.Moves

/-!
# Handlers, listeners and the acks

The handler that is under way at a server is the one of the step, and it ends in an ack
or in a `HELP` of the step.  The listener that is done with the table of the round has an
ack of the step to create, since the step is the last one that the manager has asked for.
-/

namespace MeDiE.Launch

open MeDiE.Server (handling)
open MeDiE.Storage
open MeDiE.System
open MeDiE.Verified
open MeDiE.Verified.Transition

variable {n nb : Nat} {A C : Type}

/-! ## Handlers -/

/-- There is one handler under way at most, and it is the one of the step. -/
theorem ServerInv.of_handler {b : State n nb A C} {s : Fin nb} (inv : ServerInv b s)
    (hrunning : (b.sys.srv s).handlers ≠ []) :
    ∃ h, b.point.signalled s ∧ (b.sys.srv s).handlers = [h] ∧ b.tags s = [b.step] ∧
      b.creating s = [] ∧ b.ack0 s = none := by
  cases inv.handled with
  | running h hsignal hhandlers htags hcreating hack =>
      exact ⟨h, hsignal, hhandlers, htags, hcreating, hack⟩
  | before _ hhandlers => exact absurd hhandlers hrunning
  | creating _ hhandlers => exact absurd hhandlers hrunning
  | acked _ hhandlers => exact absurd hhandlers hrunning
  | helped _ hhandlers => exact absurd hhandlers hrunning

/-- A step of a handler. -/
theorem Inv.handled {b : State n nb A C} (inv : Inv b) {s : Fin nb}
    (hrunning : (b.sys.srv s).handlers ≠ []) {srv : Server.State n nb A C}
    {tags creating : List Nat} (hepoch : srv.epoch = (b.sys.srv s).epoch)
    (hpending : srv.pending = (b.sys.srv s).pending)
    (hhandled : Handled (b.point.signalled s) b.step srv.handlers tags creating (b.ack0 s))
    (hpush : ∀ h, .help h ∈ srv.push → .help h ∈ (b.sys.srv s).push ∨
      h = b.step ∧ srv.handlers = [] ∧ creating = []) :
    Inv { b with
      sys := b.sys.setSrv s srv
      tags := Function.update b.tags s tags
      creating := Function.update b.creating s creating } := by
  obtain ⟨_, hsignal, _, _, _, hack⟩ := (inv.server s).of_handler hrunning
  constructor
  · intro w
    by_cases hw : w = s
    · subst hw
      refine ⟨?_, ?_, ?_⟩
      · simpa [hepoch] using (inv.server w).signalled
      · simpa [hepoch] using (inv.server w).before
      · simpa using hhandled
    · refine (inv.server w).congr Iff.rfl rfl ?_ ?_ ?_ ?_ rfl <;> simp [hw]
  · refine inv.manager.congr rfl rfl rfl Iff.rfl ?_ ?_
    · intro w h
      have hw : w ≠ s := fun heq => hrunning (heq ▸ h.handlers)
      exact h.congr Iff.rfl (by simp [hw]) (by simp [hw]) rfl
    · intro w h hmem
      by_cases hw : w = s
      · subst hw
        have hmem' : .help h ∈ srv.push := by simpa using hmem
        refine (hpush h hmem').imp_right fun hnew => ⟨hnew.1, hsignal, ?_, ?_, hack⟩
        · simpa using hnew.2.1
        · simpa using hnew.2.2
      · exact Or.inl (by simpa [hw] using hmem)
  · refine inv.round.congr rfl rfl Iff.rfl (fun w => ?_) rfl rfl
    by_cases hw : w = s
    · subst hw
      simpa using hpending
    · simp [hw]
  · exact inv.waited

/-- The handler that moves is the first. -/
theorem ServerInv.of_getElem {b : State n nb A C} {s : Fin nb} (inv : ServerInv b s)
    {i : Nat} {h : Server.Handler n} (hi : (b.sys.srv s).handlers[i]? = some h) :
    i = 0 ∧ (b.sys.srv s).handlers ≠ [] := by
  have hrunning : (b.sys.srv s).handlers ≠ [] := by
    intro hnil
    simp [hnil] at hi
  obtain ⟨h', _, hsingle, _⟩ := inv.of_handler hrunning
  refine ⟨?_, hrunning⟩
  rw [hsingle, List.getElem?_singleton] at hi
  by_contra hne
  simp [hne] at hi

variable [Eacl A n] [DecidableEq C]

omit [Eacl A n] [DecidableEq C] in
/-- A handler goes on. -/
theorem Inv.setHandler {b : State n nb A C} (inv : Inv b) {s : Fin nb} {i : Nat}
    {h h' : Server.Handler n} (hi : (b.sys.srv s).handlers[i]? = some h)
    {srv : Server.State n nb A C} (hepoch : srv.epoch = (b.sys.srv s).epoch)
    (hpending : srv.pending = (b.sys.srv s).pending)
    (hpush : srv.push = (b.sys.srv s).push)
    (hhandlers : srv.handlers = (b.sys.srv s).handlers.set i h') :
    Inv { b with sys := b.sys.setSrv s srv } := by
  obtain ⟨hzero, hrunning⟩ := (inv.server s).of_getElem hi
  obtain ⟨h₀, hsignal, hsingle, htags, hcreating, hack⟩ :=
    (inv.server s).of_handler hrunning
  have hhandled : Handled (b.point.signalled s) b.step srv.handlers (b.tags s)
      (b.creating s) (b.ack0 s) :=
    Handled.running h' hsignal (by rw [hhandlers, hsingle, hzero]; rfl) htags hcreating hack
  have hset := inv.handled hrunning hepoch hpending hhandled
    fun k hmem => Or.inl (hpush ▸ hmem)
  rwa [Function.update_eq_self, Function.update_eq_self] at hset

omit [DecidableEq C] in
/-- A handler that has not yet compared the load goes on. -/
theorem afterStep_handler {b : State n nb A C} {s : Fin nb} {i : Nat} {h : Server.Handler n}
    (hi : (b.sys.srv s).handlers[i]? = some h) (hne : ∀ max min, h ≠ .askRebalancing max min)
    (y : System.State n nb A C) :
    afterStep b (.server s (.handler i)) y = { b with sys := y } := by
  simp only [afterStep, hi]
  split
  · rename_i max min heq
    exact absurd (Option.some.inj heq) (hne max min)
  · rfl

omit [DecidableEq C] in
theorem Inv.handler {b : State n nb A C} (inv : Inv b) {s : Fin nb} {i : Nat}
    {srv : Server.State n nb A C} (h : Server.Step s (b.sys.srv s) (.handler i) srv) :
    Inv (afterStep b (.server s (.handler i)) (b.sys.setSrv s srv)) := by
  cases h with
  | crash l hnull => cases hnull
  | calculateSai i h h' accessList hi hnext =>
      rw [afterStep_handler hi (by cases hnext <;> simp)]
      exact inv.setHandler hi rfl rfl rfl rfl
  | setEaclEpoch i hi =>
      rw [afterStep_handler hi (by simp)]
      exact inv.setHandler hi rfl rfl rfl rfl
  | resetAccess i hi =>
      rw [afterStep_handler hi (by simp)]
      exact inv.setHandler hi rfl rfl rfl rfl
  | threshold i hi =>
      rw [afterStep_handler hi (by simp)]
      exact inv.setHandler hi rfl rfl rfl rfl
  | noRebalancing i max min hi hload =>
      obtain ⟨hzero, hrunning⟩ := (inv.server s).of_getElem hi
      obtain ⟨h₀, hsignal, hsingle, htags, hcreating, hack⟩ :=
        (inv.server s).of_handler hrunning
      have hafter : afterStep b (.server s (.handler i)) (b.sys.setSrv s
          { b.sys.srv s with handlers := (b.sys.srv s).handlers.eraseIdx i }) =
          { b with
            sys := b.sys.setSrv s
              { b.sys.srv s with handlers := (b.sys.srv s).handlers.eraseIdx i }
            tags := Function.update b.tags s ((b.tags s).eraseIdx i)
            creating := Function.update b.creating s
              (b.creating s ++ [(b.tags s).getD i 0]) } := by
        simp [afterStep, hi, afterHandler, hload]
      rw [hafter]
      refine inv.handled hrunning rfl rfl ?_ fun k hmem => Or.inl hmem
      apply Handled.creating hsignal
      · simp [hsingle, hzero]
      · simp [htags, hzero]
      · simp [hcreating, htags, hzero]
      · exact hack
  | askRebalancing i max min hi hload =>
      obtain ⟨hzero, hrunning⟩ := (inv.server s).of_getElem hi
      obtain ⟨h₀, hsignal, hsingle, htags, hcreating, hack⟩ :=
        (inv.server s).of_handler hrunning
      have hafter : afterStep b (.server s (.handler i)) (b.sys.setSrv s
          { b.sys.srv s with
            handlers := (b.sys.srv s).handlers.eraseIdx i
            push := (b.sys.srv s).push ++ [.help (b.sys.srv s).epoch] }) =
          { b with
            sys := b.sys.setSrv s
              { b.sys.srv s with
                handlers := (b.sys.srv s).handlers.eraseIdx i
                push := (b.sys.srv s).push ++ [.help (b.sys.srv s).epoch] }
            tags := Function.update b.tags s ((b.tags s).eraseIdx i)
            creating := Function.update b.creating s (b.creating s) } := by
        simp only [afterStep, hi, afterHandler, if_neg hload, Function.update_eq_self]
      rw [hafter]
      refine inv.handled hrunning rfl rfl ?_ ?_
      · apply Handled.helped hsignal
        · simp [hsingle, hzero]
        · simp [htags, hzero]
        · exact hcreating
        · exact hack
      · intro k hmem
        rcases List.mem_append.mp hmem with hmem | hmem
        · exact Or.inl hmem
        · have hk : k = (b.sys.srv s).epoch := by simpa using hmem
          refine Or.inr ⟨hk.trans ((inv.server s).signalled hsignal), ?_, hcreating⟩
          simp [hsingle, hzero]

/-! ## Listeners -/

omit [DecidableEq C] in
/-- A listener does nothing to the handlers and sends no `HELP`. -/
theorem kept_listener {s : Fin nb} {srv srv' : Server.State n nb A C}
    (h : Server.Step s srv .listener srv') :
    srv'.handlers = srv.handlers ∧ srv'.epoch = srv.epoch ∧
      ∀ k, .help k ∈ srv'.push → .help k ∈ srv.push := by
  cases h with
  | sendEacl sai hl => exact ⟨rfl, rfl, fun k hmem => by simpa using hmem⟩
  | _ => exact ⟨rfl, rfl, fun k hmem => hmem⟩

omit [Eacl A n] [DecidableEq C] in
theorem Round.setPending {b : State n nb A C} (inv : Round b) {s : Fin nb}
    {srv : Server.State n nb A C}
    (hpending : srv.pending = (b.sys.srv s).pending ∨
      (b.sys.srv s).pending = .ask :: srv.pending) :
    Round { b with sys := b.sys.setSrv s srv } := by
  rcases hpending with hsame | hasked
  · refine inv.congr rfl rfl Iff.rfl (fun w => ?_) rfl rfl
    by_cases hw : w = s
    · subst hw
      simpa using hsame
    · simp [hw]
  · cases inv with
    | quiet hask hmode hsrv => simp [(hsrv s).1] at hasked
    | running hask hmode hsrv =>
        refine Round.running hask hmode fun w => ?_
        by_cases hw : w = s
        · subst hw
          have hw := hsrv w
          rw [hasked] at hw
          simpa using hw
        · simpa [hw] using hsrv w
    | closed hask hmode hsrv =>
        cases hsrv s with
        | commit hpending => simp [hpending] at hasked
        | acking hpending => simp [hpending] at hasked
        | acked hpending => simp [hpending] at hasked

/-- The last `ASK`. -/
theorem getD_length_sub_one {ks : List Nat} {k : Nat} (hsorted : ks.Pairwise (· < ·))
    (hmem : k ∈ ks) (hle : ∀ j ∈ ks, j ≤ k) : ks.getD (ks.length - 1) 0 = k := by
  obtain ⟨i, hi, hget⟩ := List.mem_iff_getElem.mp hmem
  have hlast : ks.length - 1 < ks.length := Nat.sub_one_lt_of_lt hi
  rw [List.getD_eq_getElem _ _ hlast]
  apply Nat.le_antisymm (hle _ (List.getElem_mem hlast))
  rw [← hget]
  rcases Nat.lt_or_eq_of_le (Nat.le_sub_one_of_lt hi) with hlt | heq
  · exact Nat.le_of_lt (List.pairwise_iff_getElem.mp hsorted _ _ hi hlast hlt)
  · simp [heq]

omit [DecidableEq C] in
/-- A listener goes on; `hround` is what that is to the round. -/
theorem Inv.setListener {b : State n nb A C} (inv : Inv b) {s : Fin nb}
    {srv : Server.State n nb A C} (h : Server.Step s (b.sys.srv s) .listener srv)
    {acking : Fin nb → Option Nat}
    (hround : Round { b with
      sys := b.sys.setSrv s srv
      acking := acking }) :
    Inv { b with
      sys := b.sys.setSrv s srv
      acking := acking } := by
  obtain ⟨hhandlers, hepoch, hpush⟩ := kept_listener h
  have hsrv : ∀ w, ((b.sys.setSrv s srv).srv w).handlers = (b.sys.srv w).handlers ∧
      ((b.sys.setSrv s srv).srv w).epoch = (b.sys.srv w).epoch ∧
        ∀ k, .help k ∈ ((b.sys.setSrv s srv).srv w).push → .help k ∈ (b.sys.srv w).push := by
    intro w
    by_cases hw : w = s
    · subst hw
      simpa using kept_listener h
    · simp [hw]
  constructor
  · exact fun w => (inv.server w).congr Iff.rfl rfl (hsrv w).2.1 (hsrv w).1 rfl rfl rfl
  · refine inv.manager.congr rfl rfl rfl Iff.rfl ?_ ?_
    · exact fun w h => h.congr Iff.rfl (hsrv w).1 rfl rfl
    · exact fun w k hmem => Or.inl ((hsrv w).2.2 k hmem)
  · exact hround
  · exact inv.waited

omit [DecidableEq C] in
/-- A listener takes its packets and answers an `ASK`. -/
theorem pending_listener {s : Fin nb} {srv srv' : Server.State n nb A C}
    (h : Server.Step s srv .listener srv')
    (hne : ∀ sender receiver, srv.listener ≠ .transfer sender receiver) :
    srv'.pending = srv.pending ∨ srv.pending = .ask :: srv'.pending := by
  have hpoll := h.poll
  cases hpoll with
  | quiet l hpending hreplies => exact Or.inl hpending
  | answer sai loadLvl hpending hpush => exact Or.inr hpending
  | drop epochNeeded hl hepoch hpending hreplies => exact Or.inr hpending
  | finish hpending hreplies =>
      cases h with
      | join sender receiver hl => exact absurd hl (hne sender receiver)
      | crash l hnull => cases hnull
      | _ => simp_all [Server.State.pending, handling, Server.kind]

/-- The step for which a listener that has taken over the last table creates its file. -/
theorem stepOf_eq [NeZero nb] {hash : Key → Fin n} {b : State n nb A C}
    (hreach : Reachable hash b.sys) (inv : Inv b) (hask : b.step ∈ b.sys.log.asks)
    (hmode : modeOf b.sys.mgr.point = .rest) {s : Fin nb}
    (hplans : (b.sys.srv s).plans.length = b.sys.log.mlts.length) :
    stepOf b.sys s = b.step := by
  have horder := askOrder_of_reachable hreach
  have hpaired := paired_of_reachable hreach
  rw [Paired, if_pos hmode, Nat.add_zero] at hpaired
  have hepoch : b.sys.mgr.epoch ≤ b.step := by
    by_cases hsignal : b.point.managerSignalled
    · exact Nat.le_of_eq (inv.manager.signalled hsignal)
    · exact Nat.le_of_succ_le (Nat.le_of_eq (inv.manager.before hsignal))
  rw [stepOf, hplans, ← hpaired]
  exact getD_length_sub_one horder.sorted hask fun k hk => (horder.le k hk).trans hepoch

theorem Inv.listener [NeZero nb] {hash : Key → Fin n} {b : State n nb A C} (inv : Inv b)
    (hreach : Reachable hash b.sys) {s : Fin nb} {srv : Server.State n nb A C}
    (h : Server.Step s (b.sys.srv s) .listener srv) :
    Inv (afterStep b (.server s .listener) (b.sys.setSrv s srv)) := by
  by_cases htransfer : ∃ sender receiver, (b.sys.srv s).listener = .transfer sender receiver
  · obtain ⟨sender, receiver, hl⟩ := htransfer
    cases h with
    | join sender' receiver' hl' hsender hreceiver =>
        have hafter : ∀ y, afterStep b (.server s .listener) y =
            { b with
              sys := y
              acking := Function.update b.acking s (some (stepOf y s)) } := by
          intro y
          simp only [afterStep, hl]
        rw [hafter]
        have hjoin : Server.Step s (b.sys.srv s) .listener
            { b.sys.srv s with listener := .recv } :=
          Server.Step.join sender' receiver' hl' hsender hreceiver
        apply inv.setListener hjoin
        have hpending : (b.sys.srv s).pending =
            .commit :: Server.State.pending { b.sys.srv s with listener := .recv } := by
          simp [Server.State.pending, hl, handling]
        cases inv.round with
        | quiet hask hmode hsrv => simp [(hsrv s).1] at hpending
        | running hask hmode hsrv => exact absurd (by simp [hpending]) (hsrv s).1
        | closed hask hmode hsrv =>
            have hdone : Server.State.pending { b.sys.srv s with listener := .recv } = [] ∧
                b.ack1 s = none := by
              cases hsrv s with
              | commit hcommit _ hack =>
                  rw [hcommit] at hpending
                  exact ⟨(List.cons.inj hpending).2.symm, hack⟩
              | acking hnil => simp [hnil] at hpending
              | acked hnil => simp [hnil] at hpending
            have hreplica := (replicaInv_of_reachable hreach s).step
              (historyInv_of_reachable hreach) hjoin
            have hplans := plans_of_finished hreplica (by simp [Finished, hdone.1])
            have hstepOf := stepOf_eq hreach inv hask hmode hplans
            refine Round.closed hask hmode fun w => ?_
            by_cases hw : w = s
            · subst hw
              apply Done.acking
              · simpa using hdone.1
              · simpa [stepOf] using hstepOf
              · exact hdone.2
            · simpa [hw] using hsrv w
    | crash l hnull => cases hnull
    | _ => simp_all only [reduceCtorEq]
  · have hne : ∀ sender receiver, (b.sys.srv s).listener ≠ .transfer sender receiver :=
      fun sender receiver hl => htransfer ⟨sender, receiver, hl⟩
    have hafter : ∀ y, afterStep b (.server s .listener) y = { b with sys := y } := by
      intro y
      simp only [afterStep]
    rw [hafter]
    exact inv.setListener h (inv.round.setPending (pending_listener h hne))

end MeDiE.Launch
