import MeDiE.System.Replicas

/-!
# Requests for a rebalancing

A server whose load is too far from the mean sends `HELP` with its epoch.  The
manager throws a `HELP` away when `epoch_processed` is set and when it comes in
between the `EACL`s of a round.

Both lose requests.  `epoch_processed = 1` at the end of a round overwrites the 0
that `usrHandler2` has written during the round, and a server may be in the next
epoch, and ask for it, while the manager collects the `EACL`s of the last one.
Nothing else goes wrong: `help_asked` is about every run without the two.
-/

namespace MeDiE.Server

variable {n nb : Nat} {A C : Type} [Eacl A n]

/-- The epoch of the `HELP` that handler `i` is about to send. -/
def helpOf (srv : State n nb A C) (i : Nat) : Option Nat :=
  match srv.handlers[i]? with
  | some (.askRebalancing max min) =>
      if Eacl.readLoadLvl srv.accessList ≤ max ∧ min ≤ Eacl.readLoadLvl srv.accessList
      then none
      else some srv.epoch
  | _ => none

/-- What a step of a server puts on its socket to the manager. -/
theorem Step.push {s : Fin nb} {srv srv' : State n nb A C} {l : Label}
    (h : Step s srv l srv') :
    srv'.push = srv.push ∨
      (∃ sai loadLvl, srv'.push = srv.push ++ [.eacl s sai loadLvl]) ∨
      ∃ i epoch, l = .handler i ∧ helpOf srv i = some epoch ∧
        srv'.push = srv.push ++ [.help epoch] := by
  cases h with
  | askRebalancing i max min hi hload =>
      apply Or.inr
      apply Or.inr
      exact ⟨i, srv.epoch, rfl, by simp only [helpOf, hi, if_neg hload], rfl⟩
  | sendEacl sai hl => exact Or.inr (Or.inl ⟨sai, _, rfl⟩)
  | _ => exact Or.inl rfl

end MeDiE.Server

namespace MeDiE.System

open MeDiE.Storage
open MeDiE.Verified
open MeDiE.Verified.Transition

variable {n nb : Nat} {A C : Type}

/-! ## Messages that are thrown away -/

/-- The step of the label throws a `HELP` of this epoch away. -/
inductive Discards (x : State n nb A C) : Label nb C → Nat → Prop
  | processed (h : Nat) (hp : x.mgr.point = .checkProcessed h)
      (hprocessed : x.mgr.epochProcessed = true) : Discards x .manager h
  | collecting (s : Fin nb) (h nbRcv : Nat) (push : List (ToManager n nb))
      (hp : x.mgr.point = .collect nbRcv) (hrcv : nbRcv < nb)
      (hpush : (x.srv s).push = .help h :: push) : Discards x (.managerRecv s) h

/-- An `ASK` has been made and the answers are not all in. -/
def collecting : Manager.Point → Bool
  | .sendAsk _ => true
  | .collect _ => true
  | _ => false

/-- An `ASK` has been made and `epoch_processed` is still to be set. -/
def inRound : Manager.Point → Bool
  | .sendAsk _ => true
  | .collect _ => true
  | .relabelling => true
  | .sendMlt => true
  | .setProcessed => true
  | _ => false

/-- No packet is a `HELP` of a later epoch. -/
def NotLater (epoch : Nat) : ToManager n nb → Prop
  | .help h => h ≤ epoch
  | .eacl _ _ _ => True

instance (epoch : Nat) : DecidablePred (@NotLater n nb epoch)
  | .help h => inferInstanceAs (Decidable (h ≤ epoch))
  | .eacl _ _ _ => inferInstanceAs (Decidable True)

/-- Nothing on the sockets to the manager is a `HELP` of a later epoch. -/
def NoLaterHelp (x : State n nb A C) : Prop :=
  ∀ s, ∀ packet ∈ (x.srv s).push, NotLater x.mgr.epoch packet

instance (x : State n nb A C) : Decidable (NoLaterHelp x) :=
  inferInstanceAs (Decidable (∀ s, ∀ packet ∈ (x.srv s).push, _))

variable [Eacl A n]

/-- Epochs and rounds do not overlap: `usrHandler2` does not run in a round, an
`ASK` is not made while a `HELP` of a later epoch waits, and while the answers are
collected no server sends one. -/
def NoOverlap (l : Label nb C) (x : State n nb A C) : Prop :=
  match l with
  | .usrHandler2 => inRound x.mgr.point = false
  | .manager => x.mgr.point = .newAsk → NoLaterHelp x
  | .server s (.handler i) =>
      collecting x.mgr.point = true → ∀ h ∈ Server.helpOf (x.srv s) i, h ≤ x.mgr.epoch
  | _ => True

/-- `NoOverlap`, as it is computed. -/
def noOverlap (l : Label nb C) (x : State n nb A C) : Bool :=
  match l with
  | .usrHandler2 => !inRound x.mgr.point
  | .manager => x.mgr.point = .newAsk → NoLaterHelp x
  | .server s (.handler i) =>
      collecting x.mgr.point = true → ∀ h ∈ Server.helpOf (x.srv s) i, h ≤ x.mgr.epoch
  | _ => true

theorem noOverlap_iff {l : Label nb C} {x : State n nb A C} :
    noOverlap l x = true ↔ NoOverlap l x := by
  unfold noOverlap NoOverlap
  split <;> simp [imp_iff_not_or]

instance (l : Label nb C) (x : State n nb A C) : Decidable (NoOverlap l x) :=
  decidable_of_iff _ noOverlap_iff

/-! ## Runs without overlap -/

structure HelpInv (x : State n nb A C) : Prop where
  ask : ∀ k, x.mgr.point = .sendAsk k → k = x.mgr.epoch
  asked : inRound x.mgr.point = true → (∀ k, x.mgr.point ≠ .sendAsk k) →
    x.mgr.epoch ∈ x.log.asks
  processed : x.mgr.epochProcessed = true → x.mgr.epoch ∈ x.log.asks
  help : ∀ h, x.mgr.point = .checkProcessed h → h ≤ x.mgr.epoch
  queued : collecting x.mgr.point = true → NoLaterHelp x

theorem helpInv_init [NeZero nb] : HelpInv (init n nb A C) where
  ask := fun k h => by cases h
  asked := fun h => by cases h
  processed := fun h => by cases h
  help := fun h hp => by cases hp
  queued := fun h => by cases h

omit [Eacl A n] in
/-- The manager stays, and what comes onto its sockets may come. -/
theorem HelpInv.of_push {x y : State n nb A C} (inv : HelpInv x)
    (hmgr : y.mgr = x.mgr) (hasks : y.log.asks = x.log.asks)
    (hpush : collecting x.mgr.point = true → ∀ s, ∀ packet ∈ (y.srv s).push,
      packet ∈ (x.srv s).push ∨ NotLater x.mgr.epoch packet) : HelpInv y where
  ask := by
    rw [hmgr]
    exact inv.ask
  asked := by
    rw [hmgr, hasks]
    exact inv.asked
  processed := by
    rw [hmgr, hasks]
    exact inv.processed
  help := by
    rw [hmgr]
    exact inv.help
  queued := by
    unfold NoLaterHelp
    rw [hmgr]
    intro hcoll s packet hpacket
    rcases hpush hcoll s packet hpacket with h | h
    · exact inv.queued hcoll s packet h
    · exact h

omit [Eacl A n] in
theorem HelpInv.setSrv {x : State n nb A C} (inv : HelpInv x) (s : Fin nb)
    (srv : Server.State n nb A C)
    (hpush : collecting x.mgr.point = true → ∀ packet ∈ srv.push,
      packet ∈ (x.srv s).push ∨ NotLater x.mgr.epoch packet) :
    HelpInv (x.setSrv s srv) := by
  apply inv.of_push (setSrv_mgr x s srv) (congrArg Log.asks (setSrv_log x s srv))
  intro hcoll w packet hpacket
  by_cases hw : w = s
  · subst hw
    simp only [setSrv_srv, Function.update_self] at hpacket
    exact hpush hcoll packet hpacket
  · simp only [setSrv_srv, Function.update_of_ne hw] at hpacket
    exact Or.inl hpacket

omit [Eacl A n] in
/-- Only the sockets and the log of `asks` are read besides the manager. -/
theorem HelpInv.congr {x y : State n nb A C} (inv : HelpInv x)
    (hmgr : y.mgr = x.mgr) (hasks : y.log.asks = x.log.asks)
    (hsrv : ∀ s, (y.srv s).push = (x.srv s).push) : HelpInv y := by
  apply inv.of_push hmgr hasks
  intro _ s packet hpacket
  rw [hsrv] at hpacket
  exact Or.inl hpacket

omit [Eacl A n] in
theorem HelpInv.manager {x : State n nb A C} (inv : HelpInv x)
    (hlater : x.mgr.point = .newAsk → NoLaterHelp x) {mgr : Manager.State n nb}
    (h : Manager.LocalStep x.mgr mgr) : HelpInv (x.setMgr mgr) := by
  cases h with
  | newAsk hp =>
      exact
        { ask := fun k hk => by
            cases hk
            rfl
          asked := fun _ hne => absurd rfl (hne _)
          processed := inv.processed
          help := fun h hk => by cases hk
          queued := fun _ => hlater hp }
  | epochReached h hp hepoch =>
      exact
        { ask := fun k hk => by cases hk
          asked := fun hround => by cases hround
          processed := inv.processed
          help := fun k hk => by
            cases hk
            exact hepoch
          queued := fun hcoll => by cases hcoll }
  | collected nbRcv hp hall =>
      exact
        { ask := fun k hk => by cases hk
          asked := fun _ _ => inv.asked (by simp [hp, inRound]) (by simp [hp])
          processed := inv.processed
          help := fun k hk => by cases hk
          queued := fun hcoll => by cases hcoll }
  | relabelling hp =>
      exact
        { ask := fun k hk => by cases hk
          asked := fun _ _ => inv.asked (by simp [hp, inRound]) (by simp [hp])
          processed := inv.processed
          help := fun k hk => by cases hk
          queued := fun hcoll => by cases hcoll }
  | setProcessed hp =>
      exact
        { ask := fun k hk => by cases hk
          asked := fun hround => by cases hround
          processed := fun _ => inv.asked (by simp [hp, inRound]) (by simp [hp])
          help := fun k hk => by cases hk
          queued := fun hcoll => by cases hcoll }
  | _ =>
      exact
        { ask := fun k hk => by cases hk
          asked := fun hround => by cases hround
          processed := inv.processed
          help := fun k hk => by cases hk
          queued := fun hcoll => by cases hcoll }

variable [DecidableEq C]

theorem HelpInv.step {hash : Key → Fin n} {x y : State n nb A C} {l : Label nb C}
    (inv : HelpInv x) (hgood : NoOverlap l x) (h : Step hash x l y) : HelpInv y := by
  have h' := h
  cases h with
  | usrHandler2 =>
      have hround : inRound x.mgr.point = false := hgood
      exact
        { ask := fun k hk => by
            change x.mgr.point = .sendAsk k at hk
            simp [hk, inRound] at hround
          asked := fun h => by
            change inRound x.mgr.point = true at h
            simp [hround] at h
          processed := fun h => by cases h
          help := fun k hk => Nat.le_succ_of_le (inv.help k hk)
          queued := fun h => by
            change collecting x.mgr.point = true at h
            revert h hround
            cases x.mgr.point <;> simp [collecting, inRound] }
  | manager mgr h => exact inv.manager hgood h
  | recvHelp s epoch push hp hpush =>
      have hmgr : HelpInv (x.setMgr { x.mgr with point := .checkEpoch epoch }) :=
        { ask := fun k hk => by cases hk
          asked := fun hround => by cases hround
          processed := inv.processed
          help := fun k hk => by cases hk
          queued := fun hcoll => by cases hcoll }
      apply hmgr.setSrv
      intro hcoll
      cases hcoll
  | discardEacl s id sai loadLvl push hp hpush =>
      apply inv.setSrv
      intro _ packet hpacket
      rw [hpush]
      exact Or.inl (List.mem_cons_of_mem _ hpacket)
  | discardHelp s epoch nbRcv push hp hrcv hpush =>
      apply inv.setSrv
      intro _ packet hpacket
      rw [hpush]
      exact Or.inl (List.mem_cons_of_mem _ hpacket)
  | recvEacl s id sai loadLvl nbRcv push hp hrcv hpush =>
      have hasked := inv.asked (by simp [hp, inRound]) (by simp [hp])
      have hmgr : HelpInv (x.setMgr
          { x.mgr with
            globalList := Manager.managerMergeEacl x.mgr.globalList sai
            allList := Function.update x.mgr.allList id loadLvl
            point := .collect (nbRcv + 1) }) :=
        { ask := fun k hk => by cases hk
          asked := fun _ _ => hasked
          processed := fun _ => hasked
          help := fun k hk => by cases hk
          queued := fun _ => inv.queued (by simp [hp, collecting]) }
      have hsrv := hmgr.setSrv s { x.srv s with push := push } (by
        intro _ packet hpacket
        rw [setMgr_srv, hpush]
        exact Or.inl (List.mem_cons_of_mem _ hpacket))
      exact hsrv.congr rfl rfl fun _ => rfl
  | sendAsk epoch hp =>
      have hepoch := inv.ask epoch hp
      have hmem : x.mgr.epoch ∈ x.log.asks ++ [epoch] := by simp [hepoch]
      exact
        { ask := fun k hk => by cases hk
          asked := fun _ _ => hmem
          processed := fun _ => hmem
          help := fun k hk => by cases hk
          queued := fun _ => inv.queued (by simp [hp, collecting]) }
  | sendMlt hp =>
      exact
        { ask := fun k hk => by cases hk
          asked := fun _ _ => inv.asked (by simp [hp, inRound]) (by simp [hp])
          processed := inv.processed
          help := fun k hk => by cases hk
          queued := fun hcoll => by cases hcoll }
  | server s l srv h =>
      apply inv.setSrv
      intro hcoll packet hpacket
      rcases h.push with heq | ⟨sai, loadLvl, heq⟩ | ⟨i, epoch, hl, hhelp, heq⟩
      · rw [heq] at hpacket
        exact Or.inl hpacket
      · rw [heq, List.mem_append, List.mem_singleton] at hpacket
        rcases hpacket with hmem | heacl
        · exact Or.inl hmem
        · rw [heacl]
          exact Or.inr trivial
      · rw [heq, List.mem_append, List.mem_singleton] at hpacket
        rcases hpacket with hmem | hnew
        · exact Or.inl hmem
        · subst hl
          rw [hnew]
          exact Or.inr (hgood hcoll epoch hhelp)
  | takePacket w s sender left packet hw hwire =>
      have htaken : HelpInv (x.setSrv s { x.srv s with wire := none }) :=
        inv.setSrv s _ fun _ _ h => Or.inl h
      exact htaken.setSrv w _ fun _ _ h => Or.inl h
  | replyPacket w source sender entry left hw =>
      have hacked : HelpInv (x.setSrv source { x.srv source with ack := true }) :=
        inv.setSrv source _ fun _ _ h => Or.inl h
      exact hacked.setSrv w _ fun _ _ h => Or.inl h
  | _ =>
      have hsame := h'.sameRounds rfl
      apply inv.congr hsame.mgr hsame.asks
      intro s
      obtain ⟨main, inChargeMd, hs⟩ := hsame.srv s
      rw [hs]

/-- In a run in which `usrHandler2` does not interrupt a round, no `ASK` is made while a
`HELP` of a later epoch waits, and no server sends such a `HELP` while the manager
collects: when the manager throws a `HELP` away whose epoch is not over, an `ASK` has been
sent for that epoch. -/
theorem help_asked [NeZero nb] (hash : Key → Fin n) (x : State n nb A C)
    (hx : Reach (init n nb A C) (StepsIf (step hash) NoOverlap) x) (l : Label nb C)
    (h : Nat) (hdiscards : Discards x l h) (hepoch : x.mgr.epoch ≤ h) :
    h ∈ x.log.asks := by
  have inv : HelpInv x := by
    apply Reach.invariant helpInv_init _ hx
    rintro x y _ inv ⟨l, hgood, hl⟩
    exact inv.step hgood (step_cases hl)
  cases hdiscards with
  | processed _ hp hprocessed =>
      have heq : h = x.mgr.epoch := Nat.le_antisymm (inv.help h hp) hepoch
      rw [heq]
      exact inv.processed hprocessed
  | collecting s _ nbRcv push hp hrcv hpush =>
      have hle : h ≤ x.mgr.epoch :=
        inv.queued (by simp [hp, collecting]) s (.help h) (by simp [hpush])
      have heq : h = x.mgr.epoch := Nat.le_antisymm hle hepoch
      rw [heq]
      exact inv.asked (by simp [hp, inRound]) (by simp [hp])

/-! ## Sample runs -/

section Sample

/-- The `HELP` at the head of the socket from `s`. -/
def nextHelp (x : SampleState) (s : Fin 2) : Option Nat :=
  match (x.srv s).push with
  | .help h :: _ => some h
  | _ => none

theorem exists_push_of_nextHelp {x : SampleState} {s : Fin 2} {h : Nat}
    (hnext : nextHelp x s = some h) : ∃ push, (x.srv s).push = .help h :: push := by
  unfold nextHelp at hnext
  split at hnext
  · cases hnext
    exact ⟨_, ‹_›⟩
  · cases hnext

/-- Server 0 sends two `HELP`s of the second epoch, and the manager asks. -/
def helpTwiceRun : List (System.Label 2 Unit) :=
  requestRun 0 keyA (.create .empty) ++ requestRun 0 keyA (.update .empty) ++
    [.usrHandler2, .usrHandler2, .server 0 .usr2, .server 0 .usr2] ++
    calculateRun 0 0 ++ calculateRun 0 1 ++ threadRun 0 (.handler 0) 3 ++
    threadRun 0 (.handler 1) 3 ++ threadRun 0 (.handler 0) 2 ++
    [.managerRecv 0, .manager, .manager, .manager, .manager, .managerSend]

/-- Both keys are updated twice. -/
def updateRun : List (System.Label 2 Unit) :=
  requestRun 0 keyA (.update .empty) ++ requestRun 0 keyK (.update .empty) ++
    requestRun 0 keyA (.update .empty) ++ requestRun 0 keyK (.update .empty)

/-- `SIGUSR2` comes to the manager while it collects, and to server 0 after the
round. -/
def interruptedRun : List (System.Label 2 Unit) :=
  askRun ++ updateRun ++ .usrHandler2 :: collectRun ++ [.manager, .managerSend, .manager] ++
    signalRun 0 ++ [.managerRecv 0, .manager, .manager]

end Sample

/-- The second of two `HELP`s of one epoch is thrown away while the answers are
collected. -/
theorem help_asked_second_help :
    ∃ x : SampleState, Discards x (.managerRecv 0) 2 ∧ 2 ∈ x.log.asks := by
  have hrun : (Transition.run (guarded (step sampleHash) NoOverlap) helpTwiceRun
      (init 4 2 (EaclIndedh.EaclData 4) Unit)).any (fun x =>
        decide (x.mgr.point = .collect 0 ∧ x.mgr.epoch = 2 ∧ nextHelp x 0 = some 2)) =
      true := by
    decide +kernel
  obtain ⟨x, hx, hp⟩ := (Option.any_eq_true _ _).mp hrun
  obtain ⟨hpoint, hepoch, hnext⟩ := of_decide_eq_true hp
  obtain ⟨push, hpush⟩ := exists_push_of_nextHelp hnext
  have hdiscards : Discards x (.managerRecv 0) 2 :=
    Discards.collecting 0 2 0 push hpoint (by decide) hpush
  exact ⟨x, hdiscards, help_asked sampleHash x (reach_of_guarded_run _ hx) _ 2 hdiscards
    (by rw [hepoch])⟩

/-- `epoch_processed` is set although there has been no `ASK` for the epoch; and a
`HELP` of the next epoch is taken for an old one. -/
theorem exists_help_lost :
    (∃ x : SampleState, Reachable sampleHash x ∧ Discards x .manager 2 ∧
      x.mgr.epoch ≤ 2 ∧ 2 ∉ x.log.asks) ∧
    (∃ x : SampleState, Reachable sampleHash x ∧ Discards x (.managerRecv 0) 2 ∧
      x.mgr.epoch ≤ 2 ∧ 2 ∉ x.log.asks) := by
  constructor
  · obtain ⟨x, hx, hp⟩ := exists_of_sampleRun interruptedRun
      (fun x => decide (x.mgr.point = .checkProcessed 2 ∧ x.mgr.epochProcessed = true ∧
        x.mgr.epoch = 2 ∧ x.log.asks = [1])) (by decide +kernel)
    obtain ⟨hpoint, hprocessed, hepoch, hasks⟩ := of_decide_eq_true hp
    exact ⟨x, hx, Discards.processed 2 hpoint hprocessed, by rw [hepoch], by simp [hasks]⟩
  · obtain ⟨x, hx, hp⟩ := exists_of_sampleRun (askRun ++ updateRun ++ signalRun 0)
      (fun x => decide (x.mgr.point = .collect 0 ∧ x.mgr.epoch = 1 ∧
        nextHelp x 0 = some 2 ∧ x.log.asks = [1])) (by decide +kernel)
    obtain ⟨hpoint, hepoch, hnext, hasks⟩ := of_decide_eq_true hp
    obtain ⟨push, hpush⟩ := exists_push_of_nextHelp hnext
    exact ⟨x, hx, Discards.collecting 0 2 0 push hpoint (by decide) hpush,
      by rw [hepoch]; decide, by simp [hasks]⟩

end MeDiE.System
