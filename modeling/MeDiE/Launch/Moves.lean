import MeDiE.Launch.Script

/-!
# The system and the acks

Every step of the manager and of the servers keeps the invariant: a handler ends in an
ack or in a `HELP` of its step, an `ASK` opens the round of the step, the table that
closes it is sent when nobody has anything pending, and a listener that is done with it
has an ack of this step to create.
-/

namespace MeDiE.Launch

open MeDiE.Server (handling)
open MeDiE.Storage
open MeDiE.System
open MeDiE.Verified
open MeDiE.Verified.Transition

variable {n nb : Nat} {A C : Type}

/-! ## The system goes on -/

/-- The manager goes on by itself. -/
theorem ManagerInv.local {b : State n nb A C} (inv : ManagerInv b) (horder : AskOrder b.sys)
    {mgr : Manager.State n nb} (h : Manager.LocalStep b.sys.mgr mgr) :
    ManagerInv { b with sys := b.sys.setMgr mgr } := by
  have hqueued : ∀ k, (∀ h, helpInHand mgr.point = some h → helpInHand b.sys.mgr.point = some h) →
      HelpAt (b.sys.setMgr mgr) k → HelpAt b.sys k := by
    intro k hhand hat
    cases hat with
    | queued s hmem => exact HelpAt.queued s hmem
    | inHand hp => exact HelpAt.inHand (hhand k hp)
  cases h with
  | newHelp h hp hepoch =>
      refine inv.move rfl rfl (fun _ => rfl) ?_ ?_ ?_ ?_ ?_
      · intro k hat
        apply hqueued k _ hat
        simp [helpInHand, hp]
      · intro k hk
        have hk' : h = k := by simpa using hk
        exact hk' ▸ hepoch
      · intro k hk
        cases hk
      · intro hk
        simp at hk
      · intro j hj
        cases hj
  | epochReached h hp hepoch =>
      refine inv.move rfl rfl (fun _ => rfl) ?_ ?_ ?_ ?_ ?_
      · intro k hat
        apply hqueued k _ hat
        simp [helpInHand, hp]
      · intro k hk
        have hk' : h = k := by simpa using hk
        exact inv.reached k (Or.inl (hk' ▸ hp))
      · intro k hk
        cases hk
        exact hepoch
      · intro hk
        simp at hk
      · intro j hj
        cases hj
  | notProcessed h hp hprocessed =>
      have hreached := inv.reached h (Or.inr hp)
      have hchecked := inv.checked h hp
      obtain ⟨hle, hlt, heq⟩ := inv.help h (HelpAt.inHand (by rw [hp]; rfl))
      -- a `HELP` of an earlier step has been processed
      have hstep : h = b.step := by
        by_contra hne
        have hfresh := horder.fresh (by rw [hp]; rfl) (Or.inl hprocessed) h
          (hlt (Nat.lt_of_le_of_ne hle hne))
        omega
      refine inv.move rfl rfl (fun _ => rfl) ?_ ?_ ?_ ?_ ?_
      · intro k hat
        apply hqueued k _ hat
        simp [helpInHand]
      · intro k hk
        simp at hk
      · intro k hk
        cases hk
      · intro _
        exact ⟨by show b.sys.mgr.epoch = b.step; omega, heq hstep⟩
      · intro j hj
        cases hj
  | newAsk hp =>
      obtain ⟨hepoch, hhelped⟩ := inv.ask (Or.inl hp)
      refine inv.move rfl rfl (fun _ => rfl) ?_ ?_ ?_ ?_ ?_
      · intro k hat
        apply hqueued k _ hat
        simp [helpInHand]
      · intro k hk
        simp at hk
      · intro k hk
        cases hk
      · exact fun _ => ⟨hepoch, hhelped⟩
      · intro j hj
        cases hj
        exact hepoch
  | _ =>
      refine inv.move rfl rfl (fun _ => rfl) ?_ ?_ ?_ ?_ ?_
      · intro k hat
        apply hqueued k _ hat
        simp [helpInHand]
      · intro k hk
        simp at hk
      · intro k hk
        cases hk
      · intro hk
        simp at hk
      · intro j hj
        cases hj

variable [Eacl A n] [DecidableEq C]

theorem ManagerInv.others {hash : Key → Fin n} {b : State n nb A C} (inv : ManagerInv b)
    (horder : AskOrder b.sys) {y : System.State n nb A C} {l : System.Label nb C}
    (h : System.Step hash b.sys l y) (hkept : ∀ w, Kept (b.sys.srv w) (y.srv w))
    (husr : l ≠ .usrHandler2) (hsend : l ≠ .managerSend) :
    ManagerInv { b with sys := y } := by
  have h' := h
  have hsame : y.mgr = b.sys.mgr → y.log.asks = b.sys.log.asks →
      ManagerInv { b with sys := y } := by
    intro hmgr hasks
    exact inv.congr rfl hmgr hasks Iff.rfl
      (fun s h => h.congr Iff.rfl (hkept s).handlers rfl rfl)
      fun s h hmem => Or.inl ((hkept s).push _ hmem)
  cases h with
  | usrHandler2 => exact absurd rfl husr
  | manager mgr h => exact inv.local horder h
  | recvHelp s epoch push hp hpush =>
      refine inv.move rfl rfl (fun w => (hkept w).handlers) ?_ ?_ ?_ ?_ ?_
      · intro h hat
        cases hat with
        | queued w hmem => exact HelpAt.queued w ((hkept w).push _ hmem)
        | inHand hhand =>
            cases hhand
            exact HelpAt.queued s (by simp [hpush])
      · intro k hk
        simp at hk
      · intro k hk
        cases hk
      · intro hk
        simp at hk
      · intro j hj
        cases hj
  | recvEacl s id sai loadLvl nbRcv push hp hrcv hpush =>
      refine inv.move rfl rfl (fun w => (hkept w).handlers) ?_ ?_ ?_ ?_ ?_
      · intro h hat
        cases hat with
        | queued w hmem => exact HelpAt.queued w ((hkept w).push _ hmem)
        | inHand hhand => cases hhand
      · intro k hk
        simp at hk
      · intro k hk
        cases hk
      · intro hk
        simp at hk
      · intro j hj
        cases hj
  | sendAsk epoch hp => exact absurd rfl hsend
  | sendMlt hp => exact absurd rfl hsend
  | server s l srv hs => exact hsame rfl rfl
  | discardEacl s id sai loadLvl push hp hpush => exact hsame rfl rfl
  | discardHelp s epoch nbRcv push hp hrcv hpush => exact hsame rfl rfl
  | takePacket w s sender left packet hw hwire => exact hsame rfl rfl
  | replyPacket w source sender entry left hw => exact hsame rfl rfl
  | _ => exact hsame (h'.sameRounds rfl).mgr (h'.sameRounds rfl).asks

theorem Round.others {hash : Key → Fin n} {b : State n nb A C} (inv : Round b)
    {y : System.State n nb A C} {l : System.Label nb C}
    (h : System.Step hash b.sys l y) (hkept : ∀ w, Kept (b.sys.srv w) (y.srv w))
    (hsend : l ≠ .managerSend) : Round { b with sys := y } := by
  have h' := h
  have hsame : y.log.asks = b.sys.log.asks →
      (modeOf y.mgr.point = .rest ↔ modeOf b.sys.mgr.point = .rest) →
      Round { b with sys := y } := fun hasks hmode =>
    inv.congr rfl hasks hmode (fun w => (hkept w).pending) rfl rfl
  cases h with
  | manager mgr h =>
      apply hsame rfl
      cases h <;> simp [modeOf, *]
  | recvHelp s epoch push hp hpush =>
      apply hsame rfl
      simp [modeOf, hp]
  | recvEacl s id sai loadLvl nbRcv push hp hrcv hpush =>
      apply hsame rfl
      simp [modeOf, hp]
  | sendAsk epoch hp => exact absurd rfl hsend
  | sendMlt hp => exact absurd rfl hsend
  | usrHandler2 => exact hsame rfl Iff.rfl
  | server s l srv hs => exact hsame rfl Iff.rfl
  | discardEacl s id sai loadLvl push hp hpush => exact hsame rfl Iff.rfl
  | discardHelp s epoch nbRcv push hp hrcv hpush => exact hsame rfl Iff.rfl
  | takePacket w s sender left packet hw hwire => exact hsame rfl Iff.rfl
  | replyPacket w source sender entry left hw => exact hsame rfl Iff.rfl
  | _ =>
      have hrounds := h'.sameRounds rfl
      exact hsame hrounds.asks (by rw [hrounds.mgr])

/-- A step in which the handlers stay and nothing comes to the servers. -/
theorem Inv.others {hash : Key → Fin n} {b : State n nb A C} (inv : Inv b)
    (horder : AskOrder b.sys) {y : System.State n nb A C} {l : System.Label nb C}
    (h : System.Step hash b.sys l y) (hkept : ∀ w, Kept (b.sys.srv w) (y.srv w))
    (husr : l ≠ .usrHandler2) (hsend : l ≠ .managerSend) : Inv { b with sys := y } where
  server := fun s =>
    (inv.server s).congr Iff.rfl rfl (hkept s).epoch (hkept s).handlers rfl rfl rfl
  manager := inv.manager.others horder h hkept husr hsend
  round := inv.round.others h hkept hsend
  waited := inv.waited

/-! ## The messages of the manager -/

omit [Eacl A n] [DecidableEq C] in
theorem pending_publish (x : System.State n nb A C) (packet : FromManager n nb)
    (s : Fin nb) :
    ((x.publish packet).srv s).pending = (x.srv s).pending ++ [Server.kind packet] := by
  simp [Server.State.pending]

omit [Eacl A n] [DecidableEq C] in
theorem ManagerInv.asks {b : State n nb A C} (inv : ManagerInv b)
    (hp : b.sys.mgr.point = .sendAsk b.step) :
    ManagerInv { b with
      sys := ((b.sys.setMgr { b.sys.mgr with point := .collect 0 }).publish
        (.ask b.step)).setLog
        { b.sys.log with
          asks := b.sys.log.asks ++ [b.step]
          reports := []
          globalBefore := b.sys.mgr.globalList } } := by
  constructor
  · exact inv.signalled
  · exact inv.before
  · intro h hat
    have hold : HelpAt b.sys h := by
      cases hat with
      | queued s hmem => exact HelpAt.queued s hmem
      | inHand hhand => cases hhand
    obtain ⟨hle, hlt, heq⟩ := inv.help h hold
    refine ⟨hle, fun hk => List.mem_append_left _ (hlt hk), fun hk => (heq hk).imp ?_⟩
    exact fun s hs => hs.congr Iff.rfl rfl rfl rfl
  · intro k hk
    simp at hk
  · intro k hk
    cases hk
  · intro hk
    simp at hk
  · intro j hj
    cases hj
  · exact fun _ => (inv.ask (Or.inr hp)).2.imp fun s hs => hs.congr Iff.rfl rfl rfl rfl

theorem Inv.managerSend {hash : Key → Fin n} {b : State n nb A C} (inv : Inv b)
    (horder : AskOrder b.sys) (hpoll : Poll.Inv True (pollOf b.sys))
    {y : System.State n nb A C} (h : System.Step hash b.sys .managerSend y) :
    Inv { b with sys := y } := by
  cases h with
  | sendAsk epoch hp =>
      have hepoch := inv.manager.sendAsk epoch hp
      subst hepoch
      have hfresh : b.step ∉ b.sys.log.asks := fun hmem =>
        Nat.lt_irrefl _ ((horder.next _ hp).2 _ hmem)
      constructor
      · exact fun s => (inv.server s).congr Iff.rfl rfl rfl rfl rfl rfl rfl
      · exact inv.manager.asks hp
      · cases inv.round with
        | quiet hask hmode hsrv =>
            apply Round.running
            · exact List.mem_append_right _ (List.mem_singleton_self _)
            · simp [modeOf]
            · intro s
              obtain ⟨hpending, hacking, hack⟩ := hsrv s
              refine ⟨?_, hacking, hack⟩
              rw [setLog_srv, pending_publish, setMgr_srv, hpending]
              simp [Server.kind]
        | running hask => exact absurd hask hfresh
        | closed hask => exact absurd hask hfresh
      · exact inv.waited
  | sendMlt hp =>
      constructor
      · exact fun s => (inv.server s).congr Iff.rfl rfl rfl rfl rfl rfl rfl
      · refine inv.manager.move rfl rfl (fun _ => rfl) ?_ ?_ ?_ ?_ ?_
        · intro h hat
          cases hat with
          | queued s hmem => exact HelpAt.queued s hmem
          | inHand hhand => cases hhand
        · intro k hk
          simp at hk
        · intro k hk
          cases hk
        · intro hk
          simp at hk
        · intro j hj
          cases hj
      · have hmode : modeOf b.sys.mgr.point = .collected := by rw [hp]; rfl
        cases inv.round with
        | quiet hask hrest => simp [hmode] at hrest
        | closed hask hrest => simp [hmode] at hrest
        | running hask _ hsrv =>
            refine Round.closed hask rfl fun s => ?_
            have hpending : (b.sys.srv s).pending = [] := hpoll.pending_of_collected hmode s
            refine Done.commit ?_ (hsrv s).2.1 (hsrv s).2.2
            rw [setLog_srv, pending_publish, setMgr_srv, hpending]
            rfl
      · exact inv.waited

end MeDiE.Launch
