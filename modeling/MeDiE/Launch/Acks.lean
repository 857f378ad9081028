import MeDiE.Launch.Barrier
import MeDiE.System.Ownership

/-!
# The acks of a step

In a step every server gets one `SIGUSR2`.  Its handler ends in `vmXUSR-0` or in a
`HELP`, and every server creates `vmXUSR-1` after the table of the step's round, if there
is one.  There is one only if a server has sent a `HELP`, and that server has no
`vmXUSR-0`; so when the script finds an ack of every server and no `vmXUSR-1`, no round is
under way and none will begin, and when it finds every `vmXUSR-1` the round is over.
-/

namespace MeDiE.System

open MeDiE.Server
open MeDiE.Storage
open MeDiE.Verified
open MeDiE.Verified.Transition

variable {n nb : Nat} {A C : Type}

/-! ## What steps of others leave as it is -/

/-- The handlers of a server and its messages from the manager stay, and nothing is put
on its socket to the manager. -/
structure Kept (srv srv' : Server.State n nb A C) : Prop where
  handlers : srv'.handlers = srv.handlers
  epoch : srv'.epoch = srv.epoch
  pending : srv'.pending = srv.pending
  push : ∀ packet ∈ srv'.push, packet ∈ srv.push

theorem Kept.refl (srv : Server.State n nb A C) : Kept srv srv :=
  ⟨rfl, rfl, rfl, fun _ h => h⟩

theorem Kept.trans {srv srv' srv'' : Server.State n nb A C} (h : Kept srv srv')
    (h' : Kept srv' srv'') : Kept srv srv'' where
  handlers := h'.handlers.trans h.handlers
  epoch := h'.epoch.trans h.epoch
  pending := h'.pending.trans h.pending
  push := fun packet hmem => h.push packet (h'.push packet hmem)

variable [Eacl A n]

omit [Eacl A n] in
theorem kept_external {srv srv' : Server.State n nb A C} (h : External srv srv') :
    Kept srv srv' := by
  cases h with
  | push packet push hpush =>
      refine ⟨rfl, rfl, rfl, fun packet' hmem => ?_⟩
      rw [hpush]
      exact List.mem_cons_of_mem _ hmem
  | take sender source packet left hl =>
      exact ⟨rfl, rfl, by simp [Server.State.pending, hl, handling], fun _ h => h⟩
  | reply sender source entry left hl =>
      exact ⟨rfl, rfl, by simp [Server.State.pending, hl, handling], fun _ h => h⟩
  | _ => exact ⟨rfl, rfl, rfl, fun _ h => h⟩

/-- The threads of a transfer and the main loop keep it. -/
theorem kept_server {s : Fin nb} {srv srv' : Server.State n nb A C} {l : Server.Label}
    (h : Server.Step s srv l srv') (hl : l = .sender ∨ l = .receiver ∨ l = .main) :
    Kept srv srv' := by
  have hpoll := h.poll
  have hpending : srv'.pending = srv.pending := by
    cases hpoll with
    | quiet l hpending hreplies => exact hpending
    | _ => simp at hl
  cases h <;> first
    | exact ⟨rfl, rfl, hpending, fun _ h => h⟩
    | simp at hl

variable [DecidableEq C]

theorem Step.kept {hash : Key → Fin n} {x y : State n nb A C} {l : Label nb C}
    (h : Step hash x l y) (hsend : l ≠ .managerSend) (hserver : ∀ s l', l ≠ .server s l') :
    ∀ w, Kept (x.srv w) (y.srv w) := by
  apply h.servers_of_ne hsend (P := fun w srv => Kept (x.srv w) srv)
  · exact fun w => Kept.refl _
  · exact fun s l' srv hl => absurd hl (hserver s l')
  · exact fun w srv srv' hext hkept => hkept.trans (kept_external hext)

/-! ## Tables and `ASK`s -/

/-- A table has been sent after every `ASK` but the one of the round. -/
def Paired (x : State n nb A C) : Prop :=
  x.log.asks.length = x.log.mlts.length + if modeOf x.mgr.point = .rest then 0 else 1

theorem Paired.step {hash : Key → Fin n} {x y : State n nb A C} {l : Label nb C}
    (inv : Paired x) (h : Step hash x l y) : Paired y := by
  have h' := h
  unfold Paired at inv ⊢
  cases h with
  | manager mgr h => cases h <;> simp_all [modeOf]
  | recvHelp s epoch push hp hpush => simpa [modeOf, hp] using inv
  | recvEacl s id sai loadLvl nbRcv push hp hrcv hpush => simpa [modeOf, hp] using inv
  | sendAsk epoch hp => simpa [modeOf, hp] using inv
  | sendMlt hp => simpa [modeOf, hp] using inv
  | usrHandler2 | discardEacl | discardHelp | server | takePacket | replyPacket => exact inv
  | _ =>
      have hsame := h'.sameRounds rfl
      rw [hsame.mgr, hsame.asks, hsame.mlts]
      exact inv

variable [NeZero nb]

theorem paired_of_reachable {hash : Key → Fin n} {x : State n nb A C}
    (h : Reachable hash x) : Paired x :=
  h.invariant (I := Paired) rfl fun _ _ _ _ inv hstep => inv.step hstep

end MeDiE.System

namespace MeDiE.Launch

open MeDiE.Server (handling)
open MeDiE.Storage
open MeDiE.System
open MeDiE.Verified
open MeDiE.Verified.Transition

variable {n nb : Nat} {A C : Type}

/-! ## The handlers of a step -/

/-- `SIGUSR2` of the step has been sent to the server. -/
def Point.signalled (p : Point nb) (s : Fin nb) : Prop :=
  match p with
  | .signal left => s ∉ left
  | _ => True

/-- `SIGUSR2` of the step has been sent to the manager. -/
def Point.managerSignalled (p : Point nb) : Prop :=
  match p with
  | .signal _ => False
  | .signalManager => False
  | _ => True

/-- What has become of the `SIGUSR2` of step `k` at a server. -/
inductive Handled (signalled : Prop) (k : Nat) (handlers : List (Server.Handler n))
    (tags creating : List Nat) (ack0 : Option Nat) : Prop
  | before (hsignal : ¬ signalled) (hhandlers : handlers = []) (htags : tags = [])
      (hcreating : creating = []) (hack : ack0 = none)
  | running (h : Server.Handler n) (hsignal : signalled) (hhandlers : handlers = [h])
      (htags : tags = [k]) (hcreating : creating = []) (hack : ack0 = none)
  | creating (hsignal : signalled) (hhandlers : handlers = []) (htags : tags = [])
      (hcreating : creating = [k]) (hack : ack0 = none)
  | acked (hsignal : signalled) (hhandlers : handlers = []) (htags : tags = [])
      (hcreating : creating = []) (hack : ack0 = some k)
  | helped (hsignal : signalled) (hhandlers : handlers = []) (htags : tags = [])
      (hcreating : creating = []) (hack : ack0 = none)

/-- The handler of the step has ended with a `HELP`. -/
structure Helped (b : State n nb A C) (s : Fin nb) : Prop where
  signalled : b.point.signalled s
  handlers : (b.sys.srv s).handlers = []
  creating : b.creating s = []
  ack0 : b.ack0 s = none

/-- A server gets one signal a step. -/
structure ServerInv (b : State n nb A C) (s : Fin nb) : Prop where
  signalled : b.point.signalled s → (b.sys.srv s).epoch = b.step
  before : ¬ b.point.signalled s → (b.sys.srv s).epoch + 1 = b.step
  handled : Handled (b.point.signalled s) b.step (b.sys.srv s).handlers (b.tags s)
    (b.creating s) (b.ack0 s)

theorem ServerInv.congr {b b' : State n nb A C} {s : Fin nb} (inv : ServerInv b s)
    (hsignal : b'.point.signalled s ↔ b.point.signalled s) (hstep : b'.step = b.step)
    (hepoch : (b'.sys.srv s).epoch = (b.sys.srv s).epoch)
    (hhandlers : (b'.sys.srv s).handlers = (b.sys.srv s).handlers)
    (htags : b'.tags s = b.tags s) (hcreating : b'.creating s = b.creating s)
    (hack : b'.ack0 s = b.ack0 s) : ServerInv b' s where
  signalled := by
    rw [hsignal, hepoch, hstep]
    exact inv.signalled
  before := by
    rw [hsignal, hepoch, hstep]
    exact inv.before
  handled := by
    rw [hsignal, hstep, hhandlers, htags, hcreating, hack]
    exact inv.handled

/-! ## `HELP`s -/

/-- The epoch of the `HELP` that the manager has in hand. -/
def helpInHand : Manager.Point → Option Nat
  | .checkEpoch h => some h
  | .waitEpoch h => some h
  | .checkProcessed h => some h
  | _ => none

/-- A `HELP` of epoch `h` is on its way or in the manager's hand. -/
inductive HelpAt (x : System.State n nb A C) (h : Nat) : Prop
  | queued (s : Fin nb) (hmem : .help h ∈ (x.srv s).push)
  | inHand (hp : helpInHand x.mgr.point = some h)

/-- The manager gets one signal a step, and it asks in a step only for a `HELP` of the
step. -/
structure ManagerInv (b : State n nb A C) : Prop where
  signalled : b.point.managerSignalled → b.sys.mgr.epoch = b.step
  before : ¬ b.point.managerSignalled → b.sys.mgr.epoch + 1 = b.step
  help : ∀ h, HelpAt b.sys h → h ≤ b.step ∧ (h < b.step → h ∈ b.sys.log.asks) ∧
    (h = b.step → ∃ s, Helped b s)
  reached : ∀ h, b.sys.mgr.point = .waitEpoch h ∨ b.sys.mgr.point = .checkProcessed h →
    b.sys.mgr.epoch ≤ h
  checked : ∀ h, b.sys.mgr.point = .checkProcessed h → h ≤ b.sys.mgr.epoch
  ask : b.sys.mgr.point = .newAsk ∨ b.sys.mgr.point = .sendAsk b.step →
    b.sys.mgr.epoch = b.step ∧ ∃ s, Helped b s
  sendAsk : ∀ j, b.sys.mgr.point = .sendAsk j → j = b.step
  asked : b.step ∈ b.sys.log.asks → ∃ s, Helped b s

/-! ## The round of a step -/

/-- What has become of the table of the round at a server. -/
inductive Done (k : Nat) (pending : List Poll.Msg) (acking ack1 : Option Nat) : Prop
  | commit (hpending : pending = [.commit]) (hacking : acking = none) (hack : ack1 = none)
  | acking (hpending : pending = []) (hacking : acking = some k) (hack : ack1 = none)
  | acked (hpending : pending = []) (hacking : acking = none) (hack : ack1 = some k)

/-- How far the round of the step has come. -/
inductive Round (b : State n nb A C) : Prop
  | quiet (hask : b.step ∉ b.sys.log.asks) (hmode : modeOf b.sys.mgr.point = .rest)
      (hsrv : ∀ s, (b.sys.srv s).pending = [] ∧ b.acking s = none ∧ b.ack1 s = none)
  | running (hask : b.step ∈ b.sys.log.asks) (hmode : modeOf b.sys.mgr.point ≠ .rest)
      (hsrv : ∀ s, .commit ∉ (b.sys.srv s).pending ∧ b.acking s = none ∧ b.ack1 s = none)
  | closed (hask : b.step ∈ b.sys.log.asks) (hmode : modeOf b.sys.mgr.point = .rest)
      (hsrv : ∀ s, Done b.step (b.sys.srv s).pending (b.acking s) (b.ack1 s))

/-! ## The script -/

/-- What the script has found. -/
def Waited (ack0 ack1 : Fin nb → Option Nat) : Point nb → Prop
  | .signal left => left.Nodup
  | .signalManager => True
  | .wait i => ∀ s : Fin nb, s.val < i → ack0 s ≠ none ∨ ack1 s ≠ none
  | .search => ∀ s, ack0 s ≠ none ∨ ack1 s ≠ none
  | .wait1 i => ∀ s : Fin nb, s.val < i → ack1 s ≠ none
  | .remove => (∀ s, ack0 s ≠ none) ∨ ∀ s, ack1 s ≠ none

/-- Files that are created do not change what the script has found. -/
theorem Waited.mono {ack0 ack1 ack0' ack1' : Fin nb → Option Nat} {p : Point nb}
    (h : Waited ack0 ack1 p) (h0 : ∀ s, ack0 s ≠ none → ack0' s ≠ none)
    (h1 : ∀ s, ack1 s ≠ none → ack1' s ≠ none) : Waited ack0' ack1' p := by
  cases p with
  | signal left => exact h
  | signalManager => trivial
  | wait i => exact fun s hs => (h s hs).imp (h0 s) (h1 s)
  | search => exact fun s => (h s).imp (h0 s) (h1 s)
  | wait1 i => exact fun s hs => h1 s (h s hs)
  | remove => exact h.imp (fun h s => h0 s (h s)) (fun h s => h1 s (h s))

/-- All that holds in a run in which the steps are kept apart. -/
structure Inv (b : State n nb A C) : Prop where
  server : ∀ s, ServerInv b s
  manager : ManagerInv b
  round : Round b
  waited : Waited b.ack0 b.ack1 b.point

/-! ## Congruence -/

theorem Helped.congr {b b' : State n nb A C} {s : Fin nb} (h : Helped b s)
    (hsignal : b'.point.signalled s ↔ b.point.signalled s)
    (hhandlers : (b'.sys.srv s).handlers = (b.sys.srv s).handlers)
    (hcreating : b'.creating s = b.creating s) (hack : b'.ack0 s = b.ack0 s) :
    Helped b' s where
  signalled := hsignal.mpr h.signalled
  handlers := hhandlers.trans h.handlers
  creating := hcreating.trans h.creating
  ack0 := hack.trans h.ack0

/-- Nothing happens to the manager. -/
theorem ManagerInv.congr {b b' : State n nb A C} (inv : ManagerInv b)
    (hstep : b'.step = b.step) (hmgr : b'.sys.mgr = b.sys.mgr)
    (hasks : b'.sys.log.asks = b.sys.log.asks)
    (hsignal : b'.point.managerSignalled ↔ b.point.managerSignalled)
    (hhelped : ∀ s, Helped b s → Helped b' s)
    (hpush : ∀ s h, .help h ∈ (b'.sys.srv s).push →
      .help h ∈ (b.sys.srv s).push ∨ h = b.step ∧ Helped b' s) : ManagerInv b' where
  signalled := by
    rw [hsignal, hmgr, hstep]
    exact inv.signalled
  before := by
    rw [hsignal, hmgr, hstep]
    exact inv.before
  help := by
    rw [hstep, hasks]
    intro h hat
    have hold : HelpAt b.sys h ∨ h = b.step ∧ ∃ s, Helped b' s := by
      cases hat with
      | queued s hmem =>
          rcases hpush s h hmem with hmem | ⟨heq, hs⟩
          · exact Or.inl (HelpAt.queued s hmem)
          · exact Or.inr ⟨heq, s, hs⟩
      | inHand hp => exact Or.inl (HelpAt.inHand (hmgr ▸ hp))
    rcases hold with hat | ⟨heq, hs⟩
    · obtain ⟨hle, hlt, heq⟩ := inv.help h hat
      exact ⟨hle, hlt, fun hk => (heq hk).imp hhelped⟩
    · exact ⟨Nat.le_of_eq heq, fun hlt => absurd heq (Nat.ne_of_lt hlt), fun _ => hs⟩
  reached := by
    rw [hmgr]
    exact inv.reached
  checked := by
    rw [hmgr]
    exact inv.checked
  ask := by
    rw [hmgr, hstep]
    exact fun hp => ⟨(inv.ask hp).1, (inv.ask hp).2.imp hhelped⟩
  sendAsk := by
    rw [hmgr, hstep]
    exact inv.sendAsk
  asked := by
    rw [hstep, hasks]
    exact fun hask => (inv.asked hask).imp hhelped

/-- The manager goes on, and no `HELP` comes up. -/
theorem ManagerInv.move {b : State n nb A C} (inv : ManagerInv b) {y : System.State n nb A C}
    (hepoch : y.mgr.epoch = b.sys.mgr.epoch) (hasks : y.log.asks = b.sys.log.asks)
    (hhandlers : ∀ s, (y.srv s).handlers = (b.sys.srv s).handlers)
    (hhelp : ∀ h, HelpAt y h → HelpAt b.sys h)
    (hreached : ∀ h, y.mgr.point = .waitEpoch h ∨ y.mgr.point = .checkProcessed h →
      y.mgr.epoch ≤ h)
    (hchecked : ∀ h, y.mgr.point = .checkProcessed h → h ≤ y.mgr.epoch)
    (hask : y.mgr.point = .newAsk ∨ y.mgr.point = .sendAsk b.step →
      y.mgr.epoch = b.step ∧ ∃ s, Helped b s)
    (hsendAsk : ∀ j, y.mgr.point = .sendAsk j → j = b.step) :
    ManagerInv { b with sys := y } := by
  have hhelped : ∀ s, Helped b s → Helped { b with sys := y } s := fun s h =>
    h.congr Iff.rfl (hhandlers s) rfl rfl
  constructor
  · exact fun hsignal => hepoch.trans (inv.signalled hsignal)
  · exact fun hsignal => (congrArg (· + 1) hepoch).trans (inv.before hsignal)
  · intro h hat
    obtain ⟨hle, hlt, heq⟩ := inv.help h (hhelp h hat)
    exact ⟨hle, fun h => hasks.symm ▸ hlt h, fun hk => (heq hk).imp hhelped⟩
  · exact hreached
  · exact hchecked
  · exact fun hp => ⟨(hask hp).1, (hask hp).2.imp hhelped⟩
  · exact hsendAsk
  · exact fun hmem => (inv.asked (hasks ▸ hmem)).imp hhelped

theorem Round.congr {b b' : State n nb A C} (inv : Round b) (hstep : b'.step = b.step)
    (hasks : b'.sys.log.asks = b.sys.log.asks)
    (hmode : modeOf b'.sys.mgr.point = .rest ↔ modeOf b.sys.mgr.point = .rest)
    (hpending : ∀ s, (b'.sys.srv s).pending = (b.sys.srv s).pending)
    (hacking : b'.acking = b.acking) (hack : b'.ack1 = b.ack1) : Round b' := by
  cases inv with
  | quiet hask hmode' hsrv =>
      apply Round.quiet
      · rwa [hstep, hasks]
      · exact hmode.mpr hmode'
      · intro s
        rw [hpending, hacking, hack]
        exact hsrv s
  | running hask hmode' hsrv =>
      apply Round.running
      · rwa [hstep, hasks]
      · exact fun h => hmode' (hmode.mp h)
      · intro s
        rw [hpending, hacking, hack]
        exact hsrv s
  | closed hask hmode' hsrv =>
      apply Round.closed
      · rwa [hstep, hasks]
      · exact hmode.mpr hmode'
      · intro s
        rw [hstep, hpending, hacking, hack]
        exact hsrv s

end MeDiE.Launch
