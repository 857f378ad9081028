import MeDiE.Launch.Acks

/-!
# The script and the acks

Signals, the waiting for the files and their creation keep the invariant.  What the
script has found when it removes the files is that the round of the step is over or that
there is none; so the next step begins where this one did, if no handler is left.
-/

namespace MeDiE.Launch

open MeDiE.Server (handling)
open MeDiE.Storage
open MeDiE.System
open MeDiE.Verified
open MeDiE.Verified.Transition

variable {n nb : Nat} {A C : Type}

/-! ## The script goes on -/

/-- A command of the script that signals nobody and removes nothing. -/
theorem Inv.setPoint {b : State n nb A C} (inv : Inv b) {p : Point nb}
    (hsignal : ∀ s, p.signalled s ↔ b.point.signalled s)
    (hmanager : p.managerSignalled ↔ b.point.managerSignalled)
    (hwaited : Waited b.ack0 b.ack1 p) : Inv { b with point := p } where
  server := fun s => (inv.server s).congr (hsignal s) rfl rfl rfl rfl rfl rfl
  manager := inv.manager.congr rfl rfl rfl hmanager
    (fun s h => h.congr (hsignal s) rfl rfl rfl) fun _ _ hmem => Or.inl hmem
  round := inv.round.congr rfl rfl Iff.rfl (fun _ => rfl) rfl rfl
  waited := hwaited

theorem signalled_of_manager {p : Point nb} (h : p.managerSignalled) (s : Fin nb) :
    p.signalled s := by
  cases p with
  | signal left => exact h.elim
  | _ => trivial

/-- A command of `synchro.bash`. -/
theorem Inv.wait {b : State n nb A C} (inv : Inv b) {p : Point nb}
    (hold : b.point.managerSignalled) (hnew : p.managerSignalled)
    (hwaited : Waited b.ack0 b.ack1 p) : Inv { b with point := p } := by
  refine inv.setPoint (fun s => ?_) ⟨fun _ => hold, fun _ => hnew⟩ hwaited
  exact ⟨fun _ => signalled_of_manager hold s, fun _ => signalled_of_manager hnew s⟩

theorem Inv.kill {b : State n nb A C} (inv : Inv b) {s : Fin nb} {left : List (Fin nb)}
    (hp : b.point = .signal left) (hs : s ∈ left) :
    Inv { b with
      sys := b.sys.setSrv s (Server.usr2Handler (b.sys.srv s))
      tags := Function.update b.tags s (b.tags s ++ [b.step])
      point := .signal (left.erase s) } := by
  have hnodup : left.Nodup := by
    have hwaited := inv.waited
    rwa [hp] at hwaited
  have hbefore : ¬ b.point.signalled s := by
    rw [hp]
    exact fun h => h hs
  have hsignal : ∀ w, w ≠ s →
      ((Point.signal (left.erase s)).signalled w ↔ b.point.signalled w) := by
    intro w hw
    rw [hp]
    exact not_congr (List.mem_erase_of_ne hw)
  have hhelped : ∀ w, Helped b w → Helped
      { b with
        sys := b.sys.setSrv s (Server.usr2Handler (b.sys.srv s))
        tags := Function.update b.tags s (b.tags s ++ [b.step])
        point := .signal (left.erase s) } w := by
    intro w h
    have hw : w ≠ s := fun heq => hbefore (heq ▸ h.signalled)
    exact h.congr (hsignal w hw) (by simp [hw]) rfl rfl
  constructor
  · intro w
    by_cases hw : w = s
    · subst hw
      have hsignalled : (Point.signal (left.erase w)).signalled w := hnodup.not_mem_erase
      have hepoch := (inv.server w).before hbefore
      refine ⟨fun _ => by simpa [Server.usr2Handler] using hepoch,
        fun h => absurd hsignalled h, ?_⟩
      cases (inv.server w).handled with
      | before hsignal hhandlers htags hcreating hack =>
          refine Handled.running .calculateSai hsignalled ?_ ?_ hcreating hack
          · simp [Server.usr2Handler, hhandlers]
          · simp [htags]
      | running h hsignal => exact absurd hsignal hbefore
      | creating hsignal => exact absurd hsignal hbefore
      | acked hsignal => exact absurd hsignal hbefore
      | helped hsignal => exact absurd hsignal hbefore
    · refine (inv.server w).congr (hsignal w hw) rfl ?_ ?_ ?_ ?_ ?_ <;> simp [hw]
  · refine inv.manager.congr rfl rfl rfl ?_ hhelped ?_
    · rw [hp]
      exact Iff.rfl
    · intro w h hmem
      apply Or.inl
      by_cases hw : w = s
      · subst hw
        simpa [Server.usr2Handler] using hmem
      · simpa [hw] using hmem
  · refine inv.round.congr rfl rfl Iff.rfl ?_ rfl rfl
    intro w
    by_cases hw : w = s
    · subst hw
      simp [Server.usr2Handler, Server.State.pending]
    · simp [hw]
  · exact hnodup.erase s

theorem Inv.createAck0 {b : State n nb A C} (inv : Inv b) {s : Fin nb} {i k : Nat}
    (hi : (b.creating s)[i]? = some k) :
    Inv { b with
      creating := Function.update b.creating s ((b.creating s).eraseIdx i)
      ack0 := Function.update b.ack0 s ((b.ack0 s).or (some k)) } := by
  have hne : b.creating s ≠ [] := by
    intro hnil
    simp [hnil] at hi
  constructor
  · intro w
    by_cases hw : w = s
    · subst hw
      refine ⟨(inv.server w).signalled, (inv.server w).before, ?_⟩
      cases (inv.server w).handled with
      | creating hsignal hhandlers htags hcreating hack =>
          rw [hcreating, List.getElem?_singleton] at hi
          have hi' : i = 0 ∧ b.step = k := by simpa using hi
          obtain ⟨rfl, rfl⟩ := hi'
          apply Handled.acked hsignal hhandlers htags
          · simp [hcreating]
          · simp [hack]
      | before _ _ _ hcreating => exact absurd hcreating hne
      | running _ _ _ _ hcreating => exact absurd hcreating hne
      | acked _ _ _ hcreating => exact absurd hcreating hne
      | helped _ _ _ hcreating => exact absurd hcreating hne
    · refine (inv.server w).congr Iff.rfl rfl rfl rfl rfl ?_ ?_ <;> simp [hw]
  · refine inv.manager.congr rfl rfl rfl Iff.rfl ?_ ?_
    · intro w h
      have hw : w ≠ s := fun heq => hne (heq ▸ h.creating)
      exact h.congr Iff.rfl rfl (by simp [hw]) (by simp [hw])
    · exact fun _ _ hmem => Or.inl hmem
  · exact inv.round.congr rfl rfl Iff.rfl (fun _ => rfl) rfl rfl
  · apply inv.waited.mono
    · intro w hw
      by_cases heq : w = s
      · subst heq
        simp
      · simpa [heq] using hw
    · exact fun _ h => h

theorem Inv.createAck1 {b : State n nb A C} (inv : Inv b) {s : Fin nb} {k : Nat}
    (hk : b.acking s = some k) :
    Inv { b with
      acking := Function.update b.acking s none
      ack1 := Function.update b.ack1 s ((b.ack1 s).or (some k)) } := by
  constructor
  · exact fun w => (inv.server w).congr Iff.rfl rfl rfl rfl rfl rfl rfl
  · exact inv.manager.congr rfl rfl rfl Iff.rfl
      (fun w h => h.congr Iff.rfl rfl rfl rfl) fun _ _ hmem => Or.inl hmem
  · cases inv.round with
    | quiet hask hmode hsrv => simp [(hsrv s).2.1] at hk
    | running hask hmode hsrv => simp [(hsrv s).2.1] at hk
    | closed hask hmode hsrv =>
        refine Round.closed hask hmode fun w => ?_
        by_cases hw : w = s
        · subst hw
          cases hsrv w with
          | commit hpending hacking hack => simp [hacking] at hk
          | acking hpending hacking hack =>
              rw [hacking] at hk
              cases hk
              exact Done.acked hpending (by simp) (by simp [hack])
          | acked hpending hacking hack => simp [hacking] at hk
        · simpa [hw] using hsrv w
  · apply inv.waited.mono
    · exact fun _ h => h
    · intro w hw
      by_cases heq : w = s
      · subst heq
        simp
      · simpa [heq] using hw

/-! ## The steps are kept apart -/

/-- The manager has a `HELP` in hand and has found its epoch to be reached. -/
def holding (mgr : Manager.State n nb) : Bool :=
  match mgr.point with
  | .waitEpoch h => h ≤ mgr.epoch
  | .checkProcessed _ => true
  | _ => false

def isScript : Label nb C → Bool
  | .script => true
  | _ => false

/-- `SIGUSR2` does not come to the manager between its tests of the epoch of a `HELP` and
of `epoch_processed`, and when the files are removed no handler is under way. -/
def Orderly (l : Label nb C) (b : State n nb A C) : Prop :=
  (isScript l = true → b.point = .signalManager → holding b.sys.mgr = false) ∧
    (isScript l = true → b.point = .remove →
      ∀ s, (b.sys.srv s).handlers = [] ∧ b.creating s = [])

instance (l : Label nb C) (b : State n nb A C) : Decidable (Orderly l b) :=
  inferInstanceAs (Decidable (_ ∧ _))

theorem Inv.signalManager {b : State n nb A C} (inv : Inv b) (hp : b.point = .signalManager)
    (hholding : holding b.sys.mgr = false) :
    Inv { b with
      sys := b.sys.setMgr (Manager.usrHandler2 b.sys.mgr)
      point := .wait 0 } := by
  have hsignal : ∀ s, (Point.wait 0 : Point nb).signalled s ↔ b.point.signalled s := by
    intro s
    rw [hp]
    exact Iff.rfl
  have hepoch : b.sys.mgr.epoch + 1 = b.step := inv.manager.before (by rw [hp]; exact id)
  have hhelped : ∀ s, Helped b s → Helped
      { b with
        sys := b.sys.setMgr (Manager.usrHandler2 b.sys.mgr)
        point := .wait 0 } s := fun s h => h.congr (hsignal s) rfl rfl rfl
  constructor
  · exact fun s => (inv.server s).congr (hsignal s) rfl rfl rfl rfl rfl rfl
  · constructor
    · exact fun _ => hepoch
    · exact fun h => absurd trivial h
    · intro h hat
      have hold : HelpAt b.sys h := by
        cases hat with
        | queued s hmem => exact HelpAt.queued s hmem
        | inHand hp => exact HelpAt.inHand hp
      obtain ⟨hle, hlt, heq⟩ := inv.manager.help h hold
      exact ⟨hle, hlt, fun hk => (heq hk).imp hhelped⟩
    · intro h hpoint
      have hpoint' : b.sys.mgr.point = .waitEpoch h ∨ b.sys.mgr.point = .checkProcessed h :=
        hpoint
      show b.sys.mgr.epoch + 1 ≤ h
      rcases hpoint' with hpoint | hpoint
      · simpa [holding, hpoint] using hholding
      · simp [holding, hpoint] at hholding
    · intro h hpoint
      simp [holding, show b.sys.mgr.point = _ from hpoint] at hholding
    · intro hpoint
      have hask := (inv.manager.ask hpoint).1
      omega
    · exact inv.manager.sendAsk
    · exact fun hask => (inv.manager.asked hask).imp hhelped
  · exact inv.round.congr rfl rfl Iff.rfl (fun _ => rfl) rfl rfl
  · intro s hs
    exact absurd hs (Nat.not_lt_zero _)

/-- A server that has its ack file has not asked for help. -/
theorem Inv.no_help {b : State n nb A C} (hack : ∀ s, b.ack0 s ≠ none) :
    ¬ ∃ s, Helped b s := by
  rintro ⟨s, h⟩
  exact hack s h.ack0

/-- What the script has found when it removes the files: the round of the step is over at
every server, or there is none. -/
theorem Inv.over [NeZero nb] {b : State n nb A C} (inv : Inv b) (hp : b.point = .remove) :
    modeOf b.sys.mgr.point = .rest ∧
      (∀ s, (b.sys.srv s).pending = [] ∧ b.acking s = none) ∧
        (b.step ∈ b.sys.log.asks ∨ ¬ ∃ s, Helped b s) := by
  have hwaited := inv.waited
  rw [hp] at hwaited
  cases inv.round with
  | quiet hask hmode hsrv =>
      refine ⟨hmode, fun s => ⟨(hsrv s).1, (hsrv s).2.1⟩, Or.inr ?_⟩
      rcases hwaited with hall | hall
      · exact Inv.no_help hall
      · exact absurd (hsrv 0).2.2 (hall 0)
  | running hask hmode hsrv =>
      rcases hwaited with hall | hall
      · exact absurd (inv.manager.asked hask) (Inv.no_help hall)
      · exact absurd (hsrv 0).2.2 (hall 0)
  | closed hask hmode hsrv =>
      rcases hwaited with hall | hall
      · exact absurd (inv.manager.asked hask) (Inv.no_help hall)
      · refine ⟨hmode, fun s => ?_, Or.inl hask⟩
        cases hsrv s with
        | commit hpending hacking hack => exact absurd hack (hall s)
        | acking hpending hacking hack => exact absurd hack (hall s)
        | acked hpending hacking hack => exact ⟨hpending, hacking⟩

theorem Inv.remove [NeZero nb] {b : State n nb A C} (inv : Inv b) (horder : AskOrder b.sys)
    (hp : b.point = .remove)
    (hidle : ∀ s, (b.sys.srv s).handlers = [] ∧ b.creating s = []) :
    Inv { b with
      ack0 := fun _ => none
      ack1 := fun _ => none
      step := b.step + 1
      point := .signal (List.finRange nb) } := by
  obtain ⟨hmode, hsrv, hround⟩ := inv.over hp
  have hepoch : b.sys.mgr.epoch = b.step := inv.manager.signalled (by rw [hp]; trivial)
  have hasks : b.step + 1 ∉ b.sys.log.asks := by
    intro hmem
    have hle := horder.le _ hmem
    omega
  have hnone : ∀ s, ¬ (Point.signal (List.finRange nb)).signalled s := fun s h =>
    h (List.mem_finRange s)
  constructor
  · intro s
    have hsignalled : b.point.signalled s := by rw [hp]; trivial
    refine ⟨fun h => absurd h (hnone s), fun _ => ?_, ?_⟩
    · exact congrArg (· + 1) ((inv.server s).signalled hsignalled)
    · refine Handled.before (hnone s) (hidle s).1 ?_ (hidle s).2 rfl
      cases (inv.server s).handled with
      | before hsignal => exact absurd hsignalled hsignal
      | running h _ hhandlers => simp [(hidle s).1] at hhandlers
      | creating _ _ htags => exact htags
      | acked _ _ htags => exact htags
      | helped _ _ htags => exact htags
  · constructor
    · exact fun h => h.elim
    · exact fun _ => congrArg (· + 1) hepoch
    · intro h hat
      obtain ⟨hle, hlt, heq⟩ := inv.manager.help h hat
      refine ⟨Nat.le_succ_of_le hle, fun _ => ?_, fun hk => ?_⟩
      · rcases Nat.lt_or_eq_of_le hle with hlt' | hk
        · exact hlt hlt'
        · rcases hround with hask | hno
          · exact hk ▸ hask
          · exact absurd (heq hk) hno
      · have hk' : h = b.step + 1 := hk
        omega
    · exact inv.manager.reached
    · exact inv.manager.checked
    · intro hpoint
      have hpoint' : b.sys.mgr.point = .newAsk ∨ b.sys.mgr.point = .sendAsk b.step := by
        rcases hpoint with hpoint | hpoint
        · exact Or.inl hpoint
        · exact absurd (inv.manager.sendAsk _ hpoint) (Nat.succ_ne_self b.step)
      obtain ⟨_, hhelped⟩ := inv.manager.ask hpoint'
      rcases hround with hask | hno
      · rcases hpoint' with hnew | hsend
        · have hlt := horder.fresh (by rw [hnew]; rfl) (Or.inr hnew) _ hask
          omega
        · have hlt := (horder.next _ hsend).2 _ hask
          omega
      · exact absurd hhelped hno
    · intro j hj
      have hstep := inv.manager.sendAsk j hj
      obtain ⟨_, hhelped⟩ := inv.manager.ask (Or.inr (hstep ▸ hj))
      rcases hround with hask | hno
      · have hlt := (horder.next _ hj).2 _ hask
        omega
      · exact absurd hhelped hno
    · exact fun hask => absurd hask hasks
  · refine Round.quiet hasks hmode fun s => ?_
    exact ⟨(hsrv s).1, (hsrv s).2, rfl⟩
  · exact List.nodup_finRange nb

end MeDiE.Launch
