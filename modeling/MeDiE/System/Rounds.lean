import MeDiE.System.Cases
import MeDiE.Verified.Poll

/-!
# Rounds of rebalancing

`ASK`s are polls in the sense of `Verified.Poll`, `EACL`s are replies and `MLT`s are
commits: a listener has one packet in hand and the others wait on its socket.  A
server throws an `ASK` away when its own list is of a later epoch; that is the poll
that may be dropped.
-/

namespace MeDiE.Server

open MeDiE.Verified

variable {n nb : Nat} {A C : Type}

/-- The packet that a listener has in hand. -/
def handling : Listener n nb → List Poll.Msg
  | .recv => []
  | .checkEpoch _ => [.ask]
  | .waitEpoch _ => [.ask]
  | .readSai => [.ask]
  | .sendEacl _ => [.ask]
  | .updateMlt _ _ _ => [.commit]
  | .transfer _ _ => [.commit]

def kind : FromManager n nb → Poll.Msg
  | .ask _ => .ask
  | .mlt _ => .commit

/-- What the manager has sent and the server has not finished with. -/
def State.pending (srv : State n nb A C) : List Poll.Msg :=
  handling srv.listener ++ srv.sub.map kind

def isEacl : ToManager n nb → Bool
  | .help _ => false
  | .eacl _ _ _ => true

/-- How many `EACL`s of the server wait for the manager. -/
def State.replies (srv : State n nb A C) : Nat := srv.push.countP isEacl

/-- What a step of a server is to the rounds. -/
inductive PollStep (s : Fin nb) (srv srv' : State n nb A C) : Label → Prop
  | quiet (l : Label) (hpending : srv'.pending = srv.pending)
      (hreplies : srv'.replies = srv.replies) : PollStep s srv srv' l
  | answer (sai : Fin n → Nat) (loadLvl : Nat)
      (hpending : srv.pending = .ask :: srv'.pending)
      (hpush : srv'.push = srv.push ++ [.eacl s sai loadLvl]) :
      PollStep s srv srv' .listener
  | drop (epochNeeded : Nat) (hl : srv.listener = .checkEpoch epochNeeded)
      (hepoch : epochNeeded < srv.eaclEpoch)
      (hpending : srv.pending = .ask :: srv'.pending)
      (hreplies : srv'.replies = srv.replies) : PollStep s srv srv' .listener
  | finish (hpending : srv.pending = .commit :: srv'.pending)
      (hreplies : srv'.replies = srv.replies) : PollStep s srv srv' .listener

variable [Eacl A n]

theorem Step.poll {s : Fin nb} {srv srv' : State n nb A C} {l : Label}
    (h : Step s srv l srv') : PollStep s srv srv' l := by
  cases h with
  | askRebalancing i max min hi hload =>
      apply PollStep.quiet
      · rfl
      · simp [State.replies, isEacl]
  | recvAsk epochNeeded sub hl hsub =>
      apply PollStep.quiet
      · simp [State.pending, hl, hsub, handling, kind]
      · rfl
  | recvMlt tempMlt sub hl hsub =>
      apply PollStep.quiet
      · simp [State.pending, hl, hsub, handling, kind]
      · rfl
  | oldEpoch epochNeeded hl hepoch =>
      apply PollStep.drop epochNeeded hl hepoch
      · simp [State.pending, hl, handling]
      · rfl
  | sendEacl sai hl =>
      apply PollStep.answer
      · simp [State.pending, hl, handling]
      · rfl
  | join sender receiver hl hsender hreceiver =>
      apply PollStep.finish
      · simp [State.pending, hl, handling]
      · rfl
  | usr2 | calculateSai | setEaclEpoch | resetAccess | threshold | noRebalancing
  | incrAccess | storage | crash => exact PollStep.quiet _ rfl rfl
  | _ =>
      apply PollStep.quiet
      · simp [State.pending, handling, *]
      · rfl

end MeDiE.Server

namespace MeDiE.System

open MeDiE.Server
open MeDiE.Storage
open MeDiE.Verified
open MeDiE.Verified.Transition

variable {n nb : Nat} {A C : Type}

/-! ## The system as a poll -/

def modeOf : Manager.Point → Poll.Mode
  | .collect _ => .collecting
  | .relabelling => .collected
  | .sendMlt => .collected
  | _ => .rest

/-- The rounds of a system. -/
def pollOf (x : State n nb A C) : Poll.State (Fin nb) where
  mode := modeOf x.mgr.point
  got := x.log.reports.map Report.id
  pending s := (x.srv s).pending
  replies s := (x.srv s).replies

theorem pollOf_eq {x : State n nb A C} {st : Poll.State (Fin nb)}
    (hmode : modeOf x.mgr.point = st.mode) (hgot : x.log.reports.map Report.id = st.got)
    (hsrv : ∀ s, (x.srv s).pending = st.pending s ∧ (x.srv s).replies = st.replies s) :
    pollOf x = st := by
  have hpending : (fun s => (x.srv s).pending) = st.pending := funext fun s => (hsrv s).1
  have hreplies : (fun s => (x.srv s).replies) = st.replies := funext fun s => (hsrv s).2
  rw [pollOf, hmode, hgot, hpending, hreplies]

theorem pollOf_congr {x y : State n nb A C}
    (hmode : modeOf y.mgr.point = modeOf x.mgr.point)
    (hreports : y.log.reports = x.log.reports)
    (hsrv : ∀ s, (y.srv s).pending = (x.srv s).pending ∧
      (y.srv s).replies = (x.srv s).replies) : pollOf y = pollOf x :=
  pollOf_eq hmode (congrArg (List.map Report.id) hreports) hsrv

theorem pollOf_setSrv (x : State n nb A C) (s : Fin nb) (srv : Server.State n nb A C) :
    pollOf (x.setSrv s srv) =
      { pollOf x with
        pending := Function.update (pollOf x).pending s srv.pending
        replies := Function.update (pollOf x).replies s srv.replies } :=
  pollOf_eq rfl rfl fun w =>
    ⟨Function.apply_update (fun _ => Server.State.pending) x.srv s srv w,
      Function.apply_update (fun _ => Server.State.replies) x.srv s srv w⟩

/-! ## The simulation -/

/-- The answers counted in a round. -/
def Counted (x : State n nb A C) : Prop :=
  ∀ nbRcv, x.mgr.point = .collect nbRcv →
    x.log.reports.length = nbRcv ∧ nbRcv ≤ nb

/-- The `EACL`s on a socket carry the number of the server they are from. -/
def OwnEacls (s : Fin nb) (srv : Server.State n nb A C) : Prop :=
  ∀ id sai loadLvl, .eacl id sai loadLvl ∈ srv.push → id = s

/-- No server throws an `ASK` away: when its listener compares, its list is not of a
later epoch. -/
def Answers (l : Label nb C) (x : State n nb A C) : Prop :=
  match l with
  | .server s .listener =>
      match (x.srv s).listener with
      | .checkEpoch epochNeeded => (x.srv s).eaclEpoch ≤ epochNeeded
      | _ => True
  | _ => True

/-- `Answers`, as it is computed. -/
def answers (l : Label nb C) (x : State n nb A C) : Bool :=
  match l with
  | .server s .listener =>
      match (x.srv s).listener with
      | .checkEpoch epochNeeded => (x.srv s).eaclEpoch ≤ epochNeeded
      | _ => true
  | _ => true

theorem answers_iff {l : Label nb C} {x : State n nb A C} :
    answers l x = true ↔ Answers l x := by
  unfold answers Answers
  split
  · split <;> simp
  · simp

instance (l : Label nb C) (x : State n nb A C) : Decidable (Answers l x) :=
  decidable_of_iff _ answers_iff

variable [Eacl A n] [DecidableEq C]

theorem counted_step {hash : Key → Fin n} {x y : State n nb A C} {l : Label nb C}
    (inv : Counted x) (h : Step hash x l y) : Counted y := by
  have h' := h
  cases h with
  | manager mgr h =>
      intro nbRcv hp
      cases h <;> cases hp
  | recvHelp s epoch push hp hpush =>
      intro nbRcv hp
      cases hp
  | recvEacl s id sai loadLvl nbRcv push hp hrcv hpush =>
      intro r hr
      cases hr
      have hcount := inv nbRcv hp
      simp only [setLog_log, List.length_append, List.length_singleton]
      omega
  | sendAsk epoch hp =>
      intro r hr
      cases hr
      exact ⟨rfl, Nat.zero_le nb⟩
  | sendMlt hp =>
      intro r hr
      cases hr
  | usrHandler2 | discardEacl | discardHelp | server | takePacket | replyPacket => exact inv
  | _ =>
      have hsame := h'.sameRounds rfl
      rw [Counted, hsame.mgr, hsame.reports]
      exact inv

theorem counted_of_reachable [NeZero nb] {hash : Key → Fin n} {x : State n nb A C}
    (h : Reachable hash x) : Counted x :=
  h.invariant (fun _ hp => by cases hp) fun _ _ _ _ => counted_step

omit [DecidableEq C] in
theorem ownEacls_step {s : Fin nb} {srv srv' : Server.State n nb A C} {l : Server.Label}
    (inv : OwnEacls s srv) (h : Server.Step s srv l srv') : OwnEacls s srv' := by
  intro id sai loadLvl hmem
  cases h with
  | askRebalancing i max min hi hload =>
      apply inv id sai loadLvl
      simpa using hmem
  | sendEacl sai' hl =>
      rw [List.mem_append, List.mem_singleton] at hmem
      rcases hmem with hmem | heq
      · exact inv id sai loadLvl hmem
      · cases heq
        rfl
  | _ => exact inv id sai loadLvl hmem

theorem ownEacls_of_reachable [NeZero nb] {hash : Key → Fin n} {x : State n nb A C}
    (h : Reachable hash x) : ∀ s, OwnEacls s (x.srv s) := by
  refine h.invariant (I := fun x => ∀ s, OwnEacls s (x.srv s)) ?_ ?_
  · exact fun s id sai loadLvl hmem => by cases hmem
  · intro x l y _ inv hstep
    apply hstep.servers (P := fun _ => OwnEacls) inv
    · exact fun s l srv hsrv => ownEacls_step (inv s) hsrv
    · intro s srv srv' hext hs id sai loadLvl hmem
      cases hext with
      | push packet push hpush =>
          apply hs id sai loadLvl
          rw [hpush]
          exact List.mem_cons_of_mem _ hmem
      | _ => exact hs id sai loadLvl hmem
    · exact fun s epoch => inv s
    · exact fun s => inv s

section Simulation

variable {drops : Prop}

omit [DecidableEq C] in
/-- A step of a server. -/
theorem poll_server {x : State n nb A C} {s : Fin nb} {l : Server.Label}
    {srv : Server.State n nb A C} (hgood : drops ∨ Answers (.server s l) x)
    (h : Server.Step s (x.srv s) l srv) :
    pollOf (x.setSrv s srv) = pollOf x ∨
      Poll.Step drops (pollOf x) (pollOf (x.setSrv s srv)) := by
  rw [pollOf_setSrv]
  cases h.poll with
  | quiet l hpending hreplies =>
      apply Or.inl
      rw [hpending, hreplies]
      exact congrArg₂ (fun pending replies =>
        { pollOf x with
          pending := pending
          replies := replies }) (Function.update_eq_self s _) (Function.update_eq_self s _)
  | answer sai loadLvl hpending hpush =>
      apply Or.inr
      have hreplies : srv.replies = (pollOf x).replies s + 1 := by
        simp [Server.State.replies, pollOf, hpush, isEacl]
      rw [hreplies]
      exact Poll.Step.answer hpending
  | drop epochNeeded hl hepoch hpending hreplies =>
      have hdrops : drops := by
        apply hgood.resolve_right
        simp only [Answers, hl]
        exact Nat.not_le_of_lt hepoch
      apply Or.inr
      rw [hreplies, show (x.srv s).replies = (pollOf x).replies s from rfl,
        Function.update_eq_self]
      exact Poll.Step.drop hdrops hpending
  | finish hpending hreplies =>
      apply Or.inr
      rw [hreplies, show (x.srv s).replies = (pollOf x).replies s from rfl,
        Function.update_eq_self]
      exact Poll.Step.finish hpending

omit [Eacl A n] [DecidableEq C] in
/-- A message is taken off a socket: the number of answers on it is what changes. -/
theorem pollOf_pop (x : State n nb A C) (s : Fin nb) (push : List (ToManager n nb)) :
    pollOf (x.setSrv s { x.srv s with push := push }) =
      { pollOf x with
        replies := Function.update (pollOf x).replies s (push.countP isEacl) } := by
  rw [pollOf_setSrv]
  exact congrArg (fun pending =>
    { pollOf x with
      pending := pending
      replies := Function.update (pollOf x).replies s (push.countP isEacl) })
    (Function.update_eq_self s _)

omit [Eacl A n] [DecidableEq C] in
/-- A `HELP` on a socket is not counted. -/
theorem pollOf_popHelp {x : State n nb A C} {s : Fin nb} {epoch : Nat}
    {push : List (ToManager n nb)} (hpush : (x.srv s).push = .help epoch :: push) :
    pollOf (x.setSrv s { x.srv s with push := push }) = pollOf x := by
  have hreplies : push.countP isEacl = (pollOf x).replies s := by
    simp [pollOf, Server.State.replies, hpush, isEacl]
  rw [pollOf_pop, hreplies, Function.update_eq_self]

omit [Eacl A n] [DecidableEq C] in
theorem replies_of_push {x : State n nb A C} {s id : Fin nb} {sai : Fin n → Nat}
    {loadLvl : Nat} {push : List (ToManager n nb)}
    (hpush : (x.srv s).push = .eacl id sai loadLvl :: push) :
    (pollOf x).replies s = push.countP isEacl + 1 := by
  simp [pollOf, Server.State.replies, hpush, List.countP_cons, isEacl]

omit [Eacl A n] [DecidableEq C] in
/-- The manager goes on by itself. -/
theorem poll_manager {x : State n nb A C} {mgr : Manager.State n nb} (inv : Counted x)
    (h : Manager.LocalStep x.mgr mgr) :
    pollOf (x.setMgr mgr) = pollOf x ∨ Poll.Step drops (pollOf x) (pollOf (x.setMgr mgr)) := by
  cases h with
  | collected nbRcv hp hrcv =>
      apply Or.inr
      have hmode : (pollOf x).mode = .collecting := by simp [pollOf, modeOf, hp]
      have hgot : (pollOf x).got.length = Fintype.card (Fin nb) := by
        have hcount := inv nbRcv hp
        simp only [pollOf, List.length_map, Fintype.card_fin]
        omega
      exact Poll.Step.close hmode hgot
  | _ =>
      apply Or.inl
      apply pollOf_congr
      · simp [modeOf, *]
      · rfl
      · exact fun s => ⟨rfl, rfl⟩

omit [Eacl A n] [DecidableEq C] in
theorem poll_of_step {p : Poll.State (Fin nb)} {y : State n nb A C}
    {st : Poll.State (Fin nb)} (h : Poll.Step drops p st)
    (hmode : modeOf y.mgr.point = st.mode) (hgot : y.log.reports.map Report.id = st.got)
    (hsrv : ∀ s, (y.srv s).pending = st.pending s ∧ (y.srv s).replies = st.replies s) :
    Poll.Step drops p (pollOf y) := by
  rw [pollOf_eq hmode hgot hsrv]
  exact h

/-- Nothing has happened to the messages of server `s`. -/
def SameMessages (x : State n nb A C) (s : Fin nb) (srv : Server.State n nb A C) : Prop :=
  srv.pending = (x.srv s).pending ∧ srv.replies = (x.srv s).replies

omit [Eacl A n] [DecidableEq C] in
/-- A transfer goes on. -/
theorem SameMessages.setTransfer {x : State n nb A C} {s : Fin nb}
    {srv : Server.State n nb A C} (h : SameMessages x s srv) {sender sender' : LoadSender n nb}
    {receiver receiver' : LoadReceiver n nb}
    (hl : srv.listener = .transfer sender receiver) :
    SameMessages x s { srv with listener := .transfer sender' receiver' } := by
  have hpending : State.pending { srv with listener := .transfer sender' receiver' } =
      srv.pending := by
    simp [Server.State.pending, hl, handling]
  exact ⟨hpending.trans h.1, h.2⟩

/-- Every step of the system is a step of the rounds, or none. -/
theorem poll_step {hash : Key → Fin n} {x y : State n nb A C} {l : Label nb C}
    (hcounted : Counted x) (hown : ∀ s, OwnEacls s (x.srv s))
    (hgood : drops ∨ Answers l x) (h : Step hash x l y) :
    pollOf y = pollOf x ∨ Poll.Step drops (pollOf x) (pollOf y) := by
  have h' := h
  cases h with
  | usrHandler2 => exact Or.inl rfl
  | manager mgr h => exact poll_manager hcounted h
  | recvHelp s epoch push hp hpush =>
      apply Or.inl
      rw [← pollOf_popHelp hpush]
      apply pollOf_congr
      · simp [modeOf, hp]
      · rfl
      · exact fun _ => ⟨rfl, rfl⟩
  | discardHelp s epoch nbRcv push hp hrcv hpush => exact Or.inl (pollOf_popHelp hpush)
  | discardEacl s id sai loadLvl push hp hpush =>
      apply Or.inr
      rw [pollOf_pop]
      apply Poll.Step.discard
      · simp [pollOf, modeOf, hp]
      · exact replies_of_push hpush
  | recvEacl s id sai loadLvl nbRcv push hp hrcv hpush =>
      apply Or.inr
      have hid : id = s := hown s id sai loadLvl (by simp [hpush])
      subst hid
      have hmode : (pollOf x).mode = .collecting := by simp [pollOf, modeOf, hp]
      apply poll_of_step (Poll.Step.collect hmode (replies_of_push hpush))
      · exact hmode.symm
      · exact List.map_append
      · intro w
        have hpop := congrArg (fun st => (st.pending w, st.replies w)) (pollOf_pop x id push)
        exact Prod.mk.inj hpop
  | sendAsk epoch hp =>
      apply Or.inr
      apply poll_of_step (Poll.Step.ask (by simp [pollOf, modeOf, hp]))
      · rfl
      · rfl
      · intro w
        simp [pollOf, Server.State.pending, Server.State.replies, kind]
  | sendMlt hp =>
      apply Or.inr
      apply poll_of_step (Poll.Step.commit (by simp [pollOf, modeOf, hp]))
      · rfl
      · rfl
      · intro w
        simp [pollOf, Server.State.pending, Server.State.replies, kind]
  | server s l srv h => exact poll_server hgood h
  | takePacket w s sender left packet hw hwire =>
      apply Or.inl
      have htaken : ∀ v, SameMessages x v
          ((x.setSrv s { x.srv s with wire := none }).srv v) :=
        forall_setSrv (fun _ => ⟨rfl, rfl⟩) ⟨rfl, rfl⟩
      have hl : ((x.setSrv s { x.srv s with wire := none }).srv w).listener =
          .transfer sender (.recv (left + 1)) := listener_setSrv hw rfl
      apply pollOf_congr
      · rfl
      · rfl
      · exact forall_setSrv (P := SameMessages x) htaken ((htaken w).setTransfer hl)
  | replyPacket w source sender entry left hw =>
      apply Or.inl
      have hacked : ∀ v, SameMessages x v
          ((x.setSrv source { x.srv source with ack := true }).srv v) :=
        forall_setSrv (fun _ => ⟨rfl, rfl⟩) ⟨rfl, rfl⟩
      have hl : ((x.setSrv source { x.srv source with ack := true }).srv w).listener =
          .transfer sender (.reply source entry left) := listener_setSrv hw rfl
      apply pollOf_congr
      · rfl
      · rfl
      · exact forall_setSrv (P := SameMessages x) hacked ((hacked w).setTransfer hl)
  | _ =>
      have hsame := h'.sameRounds rfl
      apply Or.inl
      apply pollOf_congr (congrArg (modeOf ∘ Manager.State.point) hsame.mgr) hsame.reports
      intro s
      obtain ⟨main, inChargeMd, heq⟩ := hsame.srv s
      rw [heq]
      exact ⟨rfl, rfl⟩

/-- The rounds are kept apart in every run of the system; no `ASK` is thrown away
where all steps meet the condition. -/
theorem pollInv_of_run [NeZero nb] (hash : Key → Fin n)
    {R : State n nb A C → State n nb A C → Prop}
    (hR : ∀ x y, R x y → ∃ l, (drops ∨ Answers l x) ∧ step hash l x = some y)
    {x : State n nb A C} (h : Reach (init n nb A C) R x) : Poll.Inv drops (pollOf x) := by
  have hreach : ∀ {x}, Reach (init n nb A C) R x → Reachable hash x := by
    intro x hx
    apply hx.mono
    intro x y hxy
    obtain ⟨l, _, hl⟩ := hR x y hxy
    exact ⟨l, hl⟩
  apply Poll.inv_of_reach
  refine h.simulation pollOf ?_
  intro x y hx hxy
  obtain ⟨l, hgood, hl⟩ := hR x y hxy
  exact poll_step (counted_of_reachable (hreach hx)) (ownEacls_of_reachable (hreach hx))
    hgood (step_cases hl)

theorem pollInv_of_reachable [NeZero nb] {hash : Key → Fin n} {x : State n nb A C}
    (h : Reachable hash x) : Poll.Inv True (pollOf x) := by
  apply pollInv_of_run hash ?_ h
  rintro x y ⟨l, hl⟩
  exact ⟨l, Or.inl trivial, hl⟩

end Simulation

end MeDiE.System
