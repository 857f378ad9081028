import MeDiE.Server.Grasp
import MeDiE.System.Keys
import MeDiE.Verified.Fair
import MeDiE.Verified.HandoverLive

/-!
# A redistribution comes to an end

Whatever clients, signals and the manager do meanwhile, a table that has been sent out is
taken over by every server and every entry is handed over, if each thread that can go on
goes on some time.  The rank of `Verified.Fair` is the work of all servers, and what helps
is a thread that need not wait; there is one because a hand-over does not get stuck.
-/

namespace MeDiE.System

open MeDiE.Server
open MeDiE.Storage
open MeDiE.Verified
open MeDiE.Verified.Fair
open MeDiE.Verified.Transition

variable {n nb : Nat} {A C : Type}

/-! ## The rank -/

/-- The work that is left, rounds first. -/
def rank (x : State n nb A C) : ℕ ×ₗ ℕ :=
  toLex (∑ s, (x.srv s).rounds, ∑ s, (x.srv s).names)

/-- One server has less to do, the others as much as before. -/
theorem rank_lt_of_less {x y : State n nb A C} {s : Fin nb}
    (hless : Less (y.srv s) (x.srv s))
    (hrest : ∀ w, w ≠ s → (y.srv w).rounds = (x.srv w).rounds ∧
      (y.srv w).names = (x.srv w).names) : rank y < rank x := by
  have hsum : ∀ f g : Fin nb → Nat, f s < g s → (∀ w, w ≠ s → f w = g w) →
      ∑ w, f w < ∑ w, g w := by
    intro f g hlt heq
    apply Finset.sum_lt_sum
    · intro w _
      by_cases hw : w = s
      · exact hw ▸ hlt.le
      · exact (heq w hw).le
    · exact ⟨s, Finset.mem_univ s, hlt⟩
  rw [rank, rank, Prod.Lex.toLex_lt_toLex]
  rcases hless with hlt | ⟨heq, hlt⟩
  · exact Or.inl (hsum _ _ hlt fun w hw => (hrest w hw).1)
  · have hrounds : ∀ w, (y.srv w).rounds = (x.srv w).rounds := by
      intro w
      by_cases hw : w = s
      · exact hw ▸ heq
      · exact (hrest w hw).1
    exact Or.inr ⟨Fintype.sum_congr _ _ hrounds, hsum _ _ hlt fun w hw => (hrest w hw).2⟩

theorem rank_setSrv_lt {x : State n nb A C} {s : Fin nb} {srv : Server.State n nb A C}
    (hless : Less srv (x.srv s)) : rank (x.setSrv s srv) < rank x := by
  apply rank_lt_of_less (s := s)
  · simpa using hless
  · intro w hw
    simp [hw]

theorem rank_eq_of_still {x y : State n nb A C} (h : ∀ s, Still (x.srv s) (y.srv s)) :
    rank y = rank x := by
  rw [rank, rank]
  congr 2
  · exact Finset.sum_congr rfl fun s _ => (h s).rounds
  · exact Finset.sum_congr rfl fun s _ => (h s).names

/-- A step that gets a transfer on. -/
def Helpful (l : Label nb C) (x : State n nb A C) : Prop :=
  match l with
  | .server s l => Server.Helpful (x.srv s) l
  | .takePacket w s => ∃ sender left packet,
      (x.srv w).listener = .transfer sender (.recv (left + 1)) ∧
        (x.srv s).wire = some (w, packet)
  | .replyPacket w => ∃ sender source entry left,
      (x.srv w).listener = .transfer sender (.reply source entry left)
  | .mainReply s => (x.srv s).Waited ∧
      ∃ c request done value, (x.srv s).main = .preSend c request done value
  | _ => False

/-- What helps goes on helping while nothing happens to the transfers. -/
theorem Helpful.still {x y : State n nb A C} {l : Label nb C} (h : Helpful l x)
    (still : ∀ s, Still (x.srv s) (y.srv s)) : Helpful l y := by
  have hbusy : ∀ s, (x.srv s).listener.Busy → (y.srv s).listener = (x.srv s).listener :=
    fun s hbusy => (still s).listener.resolve_right fun hidle => hidle.1 hbusy
  cases l with
  | server s l => exact Server.Helpful.still h (still s)
  | takePacket w s =>
      obtain ⟨sender, left, packet, hl, hwire⟩ := h
      refine ⟨sender, left, packet, (hbusy w ?_).trans hl, (still s).wire.trans hwire⟩
      rw [hl]
      trivial
  | replyPacket w =>
      obtain ⟨sender, source, entry, left, hl⟩ := h
      refine ⟨sender, source, entry, left, (hbusy w ?_).trans hl⟩
      rw [hl]
      trivial
  | mainReply s =>
      obtain ⟨hwait, c, request, done, value, hmain⟩ := h
      have hmain' : (y.srv s).main = (x.srv s).main :=
        (still s).main.resolve_right fun hnot => hnot.1 hwait
      refine ⟨?_, c, request, done, value, hmain'.trans hmain⟩
      obtain ⟨r, hmem, he⟩ := hwait
      refine ⟨r, hmain' ▸ hmem, ?_⟩
      rw [hbusy s ?_]
      · exact he
      · cases hl : (x.srv s).listener <;> simp_all [Listener.Busy]
  | _ => exact h.elim

/-! ## What holds along runs -/

section Runs

variable [NeZero nb]

/-- What is true of the servers while a redistribution is under way. -/
structure LiveInv (hash : Key → Fin n) (h : Handover.State (Fin nb) (Fin n))
    (x : State n nb A C) : Prop where
  inv : Handover.Inv h
  ack : Handover.AckInv h
  rep : Represents x h
  key : ∀ s, KeyInv hash h x.log.live s (x.srv s)
  alive : ∀ s, (x.srv s).main.alive = true

variable {hash : Key → Fin n} {h : Handover.State (Fin nb) (Fin n)} {x y : State n nb A C}
  {l : Label nb C}

theorem LiveInv.apart (live : LiveInv hash h x) (s : Fin nb) : (x.srv s).Apart :=
  apart_of_open live.rep live.inv (live.key s).changing (live.key s).drained

variable [Eacl A n] [DecidableEq C]

/-- What the sender is draining is not accepted. -/
theorem LiveInv.draining_ne (live : LiveInv hash h x) (hx : Reachable hash x) {s : Fin nb}
    {c : C} {request : Request n} (hc : (x.client c).point = .sent s request)
    (haccept : distributionPostReceive (x.srv s).table request = .accepted) :
    (x.srv s).listener.draining ≠ some request.index := by
  have howner := owner_of_accept (historyInv_of_reachable hx) (issuedInv_of_reachable hx)
    hc haccept
  have hfree := (Server.distributionPostReceive_accepted.mp haccept).1
  have hactive : Handover.Active h s request.index :=
    (active_iff_owns live.rep s request.index).mpr ⟨howner, hfree⟩
  intro hdraining
  obtain ⟨todo, rcv, hphase⟩ := phase_of_draining live.rep hdraining
  exact live.inv.not_next_of_active hactive hphase

/-- What holds in the states of a run whose senders look at the lists alone and whose
processes do not end. -/
theorem liveInv_of_run (hx : Reach (init n nb A C) (StepsIf (step hash) KeepsKeys) x) :
    Reachable hash x ∧ ∃ h, LiveInv hash h x := by
  have hreach : ∀ z : State n nb A C,
      Reach (init n nb A C) (StepsIf (step hash) KeepsKeys) z → Reachable hash z :=
    fun z hz => hz.mono fun _ _ => StepsIf.steps
  refine ⟨hreach x hx, ?_⟩
  apply Reach.invariant _ _ hx
  · exact ⟨_, Handover.inv_init _, Handover.ackInv_init _, represents_init, keyInv_init,
      fun s => rfl⟩
  · rintro x y hx ⟨h, live⟩ ⟨l, ⟨halone, hreads⟩, hl⟩
    have hstep := step_cases hl
    obtain ⟨h', hnext, rep'⟩ := represents_step (hreach x hx) live.rep live.inv
      (noError_of_keyInv live.key) hstep
    have hinv' : Handover.Inv h' ∧ Handover.AckInv h' := by
      rcases hnext with rfl | hnext
      · exact ⟨live.inv, live.ack⟩
      · exact ⟨live.inv.step hnext, live.ack.step live.inv hnext⟩
    exact ⟨h', hinv'.1, hinv'.2, rep',
      keyInv_step (hreach x hx) live.rep live.inv rep' hinv'.1 hnext live.key halone hstep,
      alive_step live.key live.alive hreads hstep⟩

/-- The rounds and the transfers keep the servers in order. -/
theorem LiveInv.orderly (live : LiveInv hash h x) (hx : Reachable hash x) (s : Fin nb) :
    Orderly (x.srv s) where
  first := by
    intro hne
    have hpoll := pollInv_of_reachable hx
    obtain ⟨m, rest, hsub⟩ : ∃ m rest, pendingMlts (x.srv s).sub = m :: rest :=
      List.exists_cons_of_ne_nil hne
    have hcount := count_commit (x.srv s)
    rw [hsub, List.length_cons] at hcount
    have hone : (x.srv s).pending.count .commit ≤ 1 := hpoll.count_commit s
    cases hpending : (x.srv s).pending with
    | nil => simp [hpending] at hcount
    | cons msg rest' =>
        have hfirst : msg = .commit := by
          rcases hpoll.of_pending (p := s) hpending with
            ⟨_, hm, _⟩ | ⟨_, _, _, ⟨hm, hrest⟩ | ⟨hm, _⟩⟩
          · exact hm
          · rw [hpending, hm, hrest] at hcount
            simp at hcount
          · exact hm
        subst hfirst
        rw [State.pending] at hpending
        cases hl : (x.srv s).listener with
        | recv =>
            refine ⟨rfl, ?_⟩
            rw [hl] at hpending
            cases hq : (x.srv s).sub with
            | nil => simp [hq, handling] at hpending
            | cons packet sub =>
                cases packet with
                | ask epoch => simp [hq, handling, kind] at hpending
                | mlt m => exact ⟨m, sub, rfl⟩
        | updateMlt m i plan =>
            rw [hl, handling] at hcount
            simp at hcount
            omega
        | transfer sender receiver =>
            rw [hl, handling] at hcount
            simp at hcount
            omega
        | _ => simp [hl, handling] at hpending
  launch := by
    intro m i plan hl hi
    obtain ⟨hnodup, _, _, hleft⟩ := (latest_of_reachable hx s).plan m i plan hl hi
    constructor
    · have hlength := hnodup.length_le_card
      rwa [List.length_map, Fintype.card_fin] at hlength
    · rw [hleft, Handover.gained]
      exact (Finset.card_le_univ _).trans_eq (Fintype.card_fin n)
  threads := (live.apart s).threads

/-! ## Progress -/

omit [NeZero nb] [Eacl A n] [DecidableEq C] in
/-- Nothing has happened to one server, and nothing to the others. -/
theorem still_setSrv {s : Fin nb} {srv : Server.State n nb A C}
    (hs : Still (x.srv s) srv) : ∀ w, Still (x.srv w) ((x.setSrv s srv).srv w) :=
  forall_setSrv (P := fun w srv => Still (x.srv w) srv) (fun w => Still.refl (x.srv w)) hs

omit [NeZero nb] [Eacl A n] [DecidableEq C] in
/-- A server changes in a part that is no work. -/
theorem rank_eq_of_same {s : Fin nb} {srv : Server.State n nb A C}
    (hlistener : srv.listener = (x.srv s).listener) (hsub : srv.sub = (x.srv s).sub)
    (hlisted : srv.inChargeMd = (x.srv s).inChargeMd) (hmain : srv.main = (x.srv s).main) :
    rank (x.setSrv s srv) = rank x := by
  have hs : srv.rounds = (x.srv s).rounds ∧ srv.names = (x.srv s).names := by
    rw [State.rounds, State.rounds, State.names, State.names, hlistener, hsub, hlisted, hmain]
    exact ⟨rfl, rfl⟩
  have hall : ∀ w, ((x.setSrv s srv).srv w).rounds = (x.srv w).rounds ∧
      ((x.setSrv s srv).srv w).names = (x.srv w).names :=
    forall_setSrv (P := fun w srv => srv.rounds = (x.srv w).rounds ∧
      srv.names = (x.srv w).names) (fun w => ⟨rfl, rfl⟩) hs
  rw [rank, rank, Fintype.sum_congr _ _ fun w => (hall w).1,
    Fintype.sum_congr _ _ fun w => (hall w).2]

/-- A step leaves less work, or the transfers as they are; one that helps leaves less. -/
theorem step_rank (live : LiveInv hash h x) (hx : Reachable hash x)
    (halive : ∀ s, (y.srv s).main.alive = true) (hstep : Step hash x l y)
    (hgoal : ¬ ∀ s, Finished (x.srv s)) :
    rank y < rank x ∨ (∀ s, Still (x.srv s) (y.srv s)) ∧ ¬ Helpful l x := by
  cases hstep with
  | usrHandler2 | manager | clientSend | clientRecv | refuse =>
      exact Or.inr ⟨fun s => Still.refl (x.srv s), id⟩
  | recvHelp s epoch push hp hpush =>
      exact Or.inr ⟨still_setSrv (x := x) (Still.of_eq rfl rfl rfl rfl rfl rfl), id⟩
  | discardEacl s id' sai loadLvl push hp hpush =>
      exact Or.inr ⟨still_setSrv (x := x) (Still.of_eq rfl rfl rfl rfl rfl rfl), id⟩
  | discardHelp s epoch nbRcv push hp hrcv hpush =>
      exact Or.inr ⟨still_setSrv (x := x) (Still.of_eq rfl rfl rfl rfl rfl rfl), id⟩
  | recvEacl s id' sai loadLvl nbRcv push hp hrcv hpush =>
      exact Or.inr ⟨still_setSrv (x := x) (Still.of_eq rfl rfl rfl rfl rfl rfl), id⟩
  | sendAsk epoch hp =>
      refine Or.inr ⟨fun s => Still.of_eq rfl ?_ rfl rfl rfl rfl, id⟩
      simp [pendingMlts_append, pendingMlts]
  | sendMlt hp =>
      -- a table is sent out when the servers are done with the last one
      refine absurd (fun s => ?_) hgoal
      have hpending := (pollInv_of_reachable hx).pending_of_collected
        (by simp [pollOf, modeOf, hp]) s
      rw [Finished, show (x.srv s).pending = [] from hpending]
      simp
  | server s l srv hs =>
      have halive' : srv.main.alive = true := by simpa using halive s
      refine (hs.work (live.orderly hx s) halive').imp rank_setSrv_lt fun hstill => ?_
      exact ⟨still_setSrv hstill.1, hstill.2⟩
  | takePacket w s sender left packet hw hwire =>
      refine Or.inl ((rank_setSrv_lt (Or.inl ?_)).trans_eq ?_)
      · have hw' : ((x.setSrv s { x.srv s with wire := none }).srv w).listener =
            .transfer sender (.recv (left + 1)) := listener_setSrv hw rfl
        rw [rounds_of_transfer hw', rounds_of_transfer rfl, LoadReceiver.rounds,
          LoadReceiver.rounds]
        omega
      · exact rank_eq_of_same rfl rfl rfl rfl
  | replyPacket w source sender entry left hw =>
      refine Or.inl ((rank_setSrv_lt (Or.inl ?_)).trans_eq ?_)
      · have hw' : ((x.setSrv source { x.srv source with ack := true }).srv w).listener =
            .transfer sender (.reply source entry left) := listener_setSrv hw rfl
        rw [rounds_of_transfer hw', rounds_of_transfer rfl, LoadReceiver.rounds,
          LoadReceiver.rounds]
        omega
      · exact rank_eq_of_same rfl rfl rfl rfl
  | accept s c request hc hmain haccept =>
      have hnot : ¬ (x.srv s).Waited := by
        rintro ⟨r, hmem, _⟩
        rw [hmain] at hmem
        cases hmem
      refine Or.inr ⟨still_setSrv (x := x) (Still.of_main (x.srv s).store _ hnot ?_
        fun e _ => rfl), id⟩
      rintro ⟨r, hmem, he⟩
      cases hmem
      exact live.draining_ne hx hc haccept he
  | answer s c request done getValue hmain =>
      have hmem : ∀ r ∈ (x.srv s).main.request, r = request := by simp [hmain]
      have hlength := length_distributionPreSend ((x.srv s).inChargeMd request.index)
        request done
      refine (work_of_main (x.srv s).store (x.srv s).accessList (by simp) ?_ ?_ ?_).imp
        (fun hless => rank_setSrv_lt (x := x) hless)
        fun hstill => ⟨still_setSrv (x := x) hstill.1, fun hhelp => hstill.2 hhelp.1⟩
      · intro e he
        exact Function.update_of_ne (he request (by simp [hmain])).symm _ _
      · intro r hr
        rw [hmem r hr, hmain, Function.update_self]
        simp only [Main.weight, if_pos]
        omega
      · intro r hr
        rw [hmem r hr, hmain]
        simp [Main.weight]

omit [NeZero nb] [Eacl A n] [DecidableEq C] in
theorem finished_of_settled {srv : Server.State n nb A C}
    (h : (handoverOf srv).phase = .settled) : Finished srv := by
  rw [Finished, ← List.count_eq_zero, count_commit]
  change phaseOf srv.listener srv.sub = .settled at h
  cases hl : srv.listener <;> rw [hl] at h <;> simp_all [handling, phaseOf]

omit [NeZero nb] [Eacl A n] [DecidableEq C] in
theorem helpful_of_applying {srv : Server.State n nb A C} {done : Set (Fin n)}
    (h : (handoverOf srv).phase = .applying done) : Server.Helpful srv .listener := by
  change phaseOf srv.listener srv.sub = .applying done at h
  cases hl : srv.listener with
  | updateMlt m i plan => simp only [Server.Helpful, hl]
  | transfer sender receiver =>
      rw [hl] at h
      cases h
  | _ =>
      rw [hl] at h
      simp only [Server.Helpful, hl]
      intro hnil
      simp [phaseOf, hnil] at h

omit [NeZero nb] [Eacl A n] [DecidableEq C] in
theorem transfer_of_moving {srv : Server.State n nb A C} {snd : Handover.Snd (Fin n)}
    {rcv : Handover.Rcv (Fin nb) (Fin n)} (h : (handoverOf srv).phase = .moving snd rcv) :
    ∃ sender receiver, srv.listener = .transfer sender receiver ∧ sndOf sender = snd ∧
      rcvOf receiver = rcv := by
  change phaseOf srv.listener srv.sub = .moving snd rcv at h
  cases hl : srv.listener with
  | transfer sender receiver =>
      rw [hl] at h
      cases h
      exact ⟨sender, receiver, rfl, rfl, rfl⟩
  | updateMlt m i plan =>
      rw [hl] at h
      cases h
  | _ =>
      rw [hl] at h
      dsimp only [phaseOf] at h
      split at h <;> cases h

omit [NeZero nb] [Eacl A n] [DecidableEq C] in
/-- A sender that need not wait goes on, after the request in its way. -/
theorem helpful_of_sender {s : Fin nb} {sender : LoadSender n nb}
    {receiver : LoadReceiver n nb} (hl : (x.srv s).listener = .transfer sender receiver)
    (hready : sender.Ready (x.srv s).ack) : ∃ a, Helpful (a : Label nb C) x := by
  by_cases hwait : (x.srv s).Waited
  · cases hmain : (x.srv s).main with
    | preSend c request done value =>
        exact ⟨.mainReply s, hwait, c, request, done, value, hmain⟩
    | _ =>
        refine ⟨.server s .main, hwait, ?_⟩
        simp [hmain]
  · exact ⟨.server s .sender, sender, receiver, hl, hready, hwait⟩

omit [Eacl A n] [DecidableEq C] in
/-- As long as a server is not done with the last table, a step helps. -/
theorem exists_helpful (live : LiveInv hash h x) (hgoal : ¬ ∀ s, Finished (x.srv s)) :
    ∃ a, Helpful (a : Label nb C) x := by
  obtain ⟨s, hs⟩ := not_forall.mp hgoal
  have hphase : (h.srv s).phase ≠ .settled := fun hsettled =>
    hs (finished_of_settled (live.rep.srv s ▸ hsettled))
  obtain ⟨h', hstep⟩ := live.inv.progress live.ack hphase
  cases hstep with
  | publish new hsettled => exact absurd (hsettled s) hphase
  | @apply w done e hw =>
      rw [live.rep.srv] at hw
      exact ⟨.server w .listener, helpful_of_applying hw⟩
  | @launch w done todo left hw hall htodo hmem hleft =>
      rw [live.rep.srv] at hw
      exact ⟨.server w .listener, helpful_of_applying hw⟩
  | @send w e todo rcv hw =>
      obtain ⟨sender, receiver, hl, hsnd, hrcv⟩ := transfer_of_moving (live.rep.srv w ▸ hw)
      exact helpful_of_sender hl (by cases sender <;> simp_all [sndOf, LoadSender.Ready])
  | @clear w e todo rcv hw =>
      obtain ⟨sender, receiver, hl, hsnd, hrcv⟩ := transfer_of_moving (live.rep.srv w ▸ hw)
      exact helpful_of_sender hl (by cases sender <;> simp_all [sndOf, LoadSender.Ready])
  | @acked w e todo rcv hw hack =>
      obtain ⟨sender, receiver, hl, hsnd, hrcv⟩ := transfer_of_moving (live.rep.srv w ▸ hw)
      have hack' : (x.srv w).ack = true := by
        rw [live.rep.srv] at hack
        exact hack
      exact helpful_of_sender hl (by cases sender <;> simp_all [sndOf, LoadSender.Ready])
  | @take w s e snd left hw hwire hne =>
      obtain ⟨sender, receiver, hl, hsnd, hrcv⟩ := transfer_of_moving (live.rep.srv w ▸ hw)
      rw [live.rep.srv] at hwire
      obtain ⟨p, hp, hpacket⟩ := Option.map_eq_some_iff.mp hwire
      have hreceiver : receiver = .recv (left + 1) := by
        cases receiver <;> simp_all [rcvOf]
      obtain ⟨server, packet⟩ := p
      cases hpacket
      exact ⟨.takePacket server s, sender, left, packet, hreceiver ▸ hl, hp⟩
  | @«open» w s e snd left hw =>
      obtain ⟨sender, receiver, hl, hsnd, hrcv⟩ := transfer_of_moving (live.rep.srv w ▸ hw)
      refine ⟨.server w .receiver, sender, receiver, hl, ?_⟩
      cases receiver <;> simp_all [rcvOf, LoadReceiver.Ready]
  | @reply w s e snd left hw hne =>
      obtain ⟨sender, receiver, hl, hsnd, hrcv⟩ := transfer_of_moving (live.rep.srv w ▸ hw)
      cases receiver with
      | resetEacl source entry left' =>
          exact ⟨.server w .receiver, sender, _, hl, trivial⟩
      | reply source entry left' => exact ⟨.replyPacket w, sender, source, entry, left', hl⟩
      | _ => cases hrcv
  | @settle w hw =>
      obtain ⟨sender, receiver, hl, hsnd, hrcv⟩ := transfer_of_moving (live.rep.srv w ▸ hw)
      by_cases hsender : sender.exited = true
      · by_cases hreceiver : receiver.exited = true
        · refine ⟨.server w .listener, ?_⟩
          simp only [Helpful, Server.Helpful, hl]
          exact ⟨hsender, hreceiver⟩
        · refine ⟨.server w .receiver, sender, receiver, hl, ?_⟩
          cases receiver <;> simp_all [rcvOf, LoadReceiver.Ready, LoadReceiver.exited]
      · refine helpful_of_sender hl ?_
        cases sender <;> simp_all [sndOf, LoadSender.Ready, LoadSender.exited]

/-- A step that helps can be done. -/
theorem Helpful.enabled {a : Label nb C} (hhelp : Helpful a x) (live : LiveInv hash h x)
    (hx : Reachable hash x) (hshort : ∀ s, (x.srv s).ReadsShort) :
    (step hash a x).isSome ∧ DrainsAlone a x := by
  cases a with
  | server s l =>
      obtain ⟨hstep, halone⟩ := Server.Helpful.enabled s hhelp
        ((namedInv_of_reachable hx).srv s) (live.orderly hx s) (live.key s).grasped
        (live.alive s) (hshort s)
      refine ⟨?_, halone⟩
      rw [step, Option.isSome_map]
      exact hstep
  | takePacket w s =>
      obtain ⟨sender, left, packet, hl, hwire⟩ := hhelp
      refine ⟨?_, trivial⟩
      simp [step, takePacket, hl, hwire, live.alive w]
  | replyPacket w =>
      obtain ⟨sender, source, entry, left, hl⟩ := hhelp
      refine ⟨?_, trivial⟩
      simp [step, replyPacket, hl, live.alive w]
  | mainReply s =>
      obtain ⟨_, c, request, done, value, hmain⟩ := hhelp
      refine ⟨?_, trivial⟩
      simp [step, mainReply, Server.mainReply, hmain]
  | _ => exact hhelp.elim

/-- The steps of the threads of a transfer and of the main loops. -/
def Moving : Label nb C → Prop
  | .server _ .listener | .server _ .sender | .server _ .receiver | .server _ .main
  | .takePacket _ _ | .replyPacket _ | .mainReply _ => True
  | _ => False

omit [NeZero nb] [Eacl A n] [DecidableEq C] in
theorem Helpful.moving {a : Label nb C} (hhelp : Helpful a x) : Moving a := by
  cases a with
  | server s l =>
      cases l with
      | usr2 | handler => exact hhelp.elim
      | _ => trivial
  | takePacket | replyPacket | mainReply => trivial
  | _ => exact hhelp.elim

/-- No sender looks at a list with a request in its way, and no server is about to read a
key that it does not store or that has a value of ten bytes or more. -/
def Calm (l : Label nb C) (x : State n nb A C) : Prop :=
  DrainsAlone l x ∧ ∀ s, (x.srv s).ReadsShort

omit [NeZero nb] [Eacl A n] [DecidableEq C] in
instance (l : Label nb C) (x : State n nb A C) : Decidable (Calm l x) :=
  inferInstanceAs (Decidable (DrainsAlone l x ∧ ∀ s, (x.srv s).ReadsShort))

omit [NeZero nb] [Eacl A n] [DecidableEq C] in
theorem Calm.keepsKeys (h : Calm l x) : KeepsKeys l x := by
  refine ⟨h.1, ?_⟩
  cases l with
  | server s l => exact (h.2 s).readsStored l
  | _ => trivial

/-- A calm run in which every thread and every packet gets on some time if it can. -/
structure FairRun (hash : Key → Fin n) (l : ℕ → Label nb C) (x : ℕ → State n nb A C) :
    Prop where
  run : IsRun (step hash) Calm (init n nb A C) l x
  fair : ∀ a, Moving a → WeaklyFair (step hash) Calm l x a

theorem FairRun.liveInv {l : ℕ → Label nb C} {x : ℕ → State n nb A C}
    (fair : FairRun hash l x) (i : ℕ) : Reachable hash (x i) ∧ ∃ h, LiveInv hash h (x i) :=
  liveInv_of_run ((fair.run.reach i).mono fun _ _ ⟨l, hcalm, hl⟩ => ⟨l, hcalm.keepsKeys, hl⟩)

theorem FairRun.progress {l : ℕ → Label nb C} {x : ℕ → State n nb A C}
    (fair : FairRun hash l x) :
    Progress (step hash) Calm l x (fun x => ∀ s, Finished (x.srv s)) rank Helpful where
  exists_helpful := by
    intro i hgoal
    obtain ⟨_, h, live⟩ := fair.liveInv i
    exact exists_helpful live hgoal
  enabled := by
    intro i a _ hhelp
    obtain ⟨hx, h, live⟩ := fair.liveInv i
    have hshort := (fair.run.good i).2
    obtain ⟨hstep, halone⟩ := hhelp.enabled live hx hshort
    exact ⟨hstep, halone, hshort⟩
  fair := fun i a _ hhelp => fair.fair a hhelp.moving
  taken := by
    intro i hgoal hhelp
    obtain ⟨hx, h, live⟩ := fair.liveInv i
    obtain ⟨_, _, live'⟩ := fair.liveInv (i + 1)
    exact (step_rank live hx live'.alive (step_cases (fair.run.next i)) hgoal).resolve_right
      fun hstill => hstill.2 hhelp
  step := by
    intro i hgoal
    obtain ⟨hx, h, live⟩ := fair.liveInv i
    obtain ⟨_, _, live'⟩ := fair.liveInv (i + 1)
    refine (step_rank live hx live'.alive (step_cases (fair.run.next i)) hgoal).imp_right
      fun hstill => ?_
    exact ⟨rank_eq_of_still hstill.1, fun a hhelp => hhelp.still hstill.1⟩

/-- No table is sent out before the servers are done with the last one. -/
theorem mlts_step (hx : Reachable hash x) (hstep : Step hash x l y)
    (hgoal : ¬ ∀ s, Finished (x.srv s)) : y.log.mlts = x.log.mlts := by
  have hstep' := hstep
  cases hstep with
  | sendMlt hp =>
      refine absurd (fun s => ?_) hgoal
      have hpending := (pollInv_of_reachable hx).pending_of_collected
        (by simp [pollOf, modeOf, hp]) s
      rw [Finished, show (x.srv s).pending = [] from hpending]
      simp
  | accept | answer | refuse | clientSend | clientRecv => exact (hstep'.sameRounds rfl).mlts
  | _ => rfl

/-- **A redistribution comes to an end.**  In an infinite run in which the threads and the
packets get their turn, no sender looks at a list with a create or a delete in its way, and
no main loop is about to read a key that is not stored or a value of ten bytes or more, the
servers take every table over that the manager sends out, before it sends the next one: all
have its rows with no entry on its way, and the keys that are kept are stored at the owners
and nowhere else. No server waits for a packet or an answer that does not come. -/
theorem redistribution_settles (hash : Key → Fin n) (l : ℕ → Label nb C)
    (x : ℕ → State n nb A C) (fair : FairRun hash l x) (i : ℕ) :
    ∃ j, i ≤ j ∧ (x j).log.mlts = (x i).log.mlts ∧ ∀ s, Finished ((x j).srv s) ∧
      ((x j).srv s).table = lastTable (x i).log.mlts ∧
      ∀ k, (x j).log.live k = true → ((x j).srv s).Has (hash k) k
        (if s = curOwner (x i).log.mlts (hash k) then .stored else .nowhere) := by
  obtain ⟨j, hij, hgoal, hbefore⟩ := fair.progress.first i
  have hmlts : (x j).log.mlts = (x i).log.mlts := by
    refine keep (P := fun k => (x k).log.mlts = (x i).log.mlts) hij rfl ?_
    intro k hik hkj heq
    obtain ⟨hx, _⟩ := fair.liveInv k
    rw [mlts_step hx (step_cases (fair.run.next k)) (hbefore k hik hkj), heq]
  obtain ⟨hx, h, live⟩ := fair.liveInv j
  have hsettled : ∀ s, (h.srv s).phase = .settled := by
    intro s
    rw [live.rep.srv]
    exact settled_of_finished (hgoal s)
  refine ⟨j, hij, hmlts, fun s => ⟨hgoal s, ?_, ?_⟩⟩
  · rw [table_of_finished live.inv live.rep (replicaInv_of_reachable hx) hgoal s, hmlts]
  · intro k hk
    obtain ⟨spot, has, haway, hkept⟩ := (live.key s).key k
    have hholder : h.holder (hash k) = curOwner (x i).log.mlts (hash k) := by
      rw [live.inv.holder_of_settled hsettled, live.rep.cur, hmlts]
    rw [hholder] at haway hkept
    have named := (namedInv_of_reachable hx).srv s
    split
    · rename_i hs
      rwa [stored_of_settled live.rep live.inv hsettled (has.inHand named) (hkept hs hk)] at has
    · rename_i hs
      rwa [haway hs] at has

end Runs

/-! ## The sample run, for ever -/

section Sample

/-- The servers have nothing on their hands. -/
def AtRest (x : SampleState) : Prop :=
  ∀ s, (x.srv s).pending = [] ∧ (x.srv s).main.request = none ∧ (x.srv s).main.alive = true

theorem AtRest.server {x : SampleState} (hx : AtRest x) (s : Fin 2) :
    (x.srv s).listener = .recv ∧ (x.srv s).sub = [] ∧ (x.srv s).main = .recv := by
  obtain ⟨hpending, hmain, halive⟩ := hx s
  rw [State.pending, List.append_eq_nil_iff, List.map_eq_nil_iff] at hpending
  refine ⟨?_, hpending.2, ?_⟩
  · cases hl : (x.srv s).listener <;> simp_all [handling]
  · cases hm : (x.srv s).main <;> simp_all [Main.alive]

theorem AtRest.calm {x : SampleState} (hx : AtRest x) :
    Calm (.usrHandler2 : Label 2 Unit) x := by
  refine ⟨trivial, fun s => ?_⟩
  rw [State.ReadsShort, (hx.server s).2.2]
  trivial

theorem AtRest.step_eq_none {x : SampleState} (hx : AtRest x) {a : Label 2 Unit}
    (ha : Moving a) : step sampleHash a x = none := by
  cases a with
  | server s l =>
      obtain ⟨hl, hsub, hmain⟩ := hx.server s
      cases l with
      | usr2 | handler => exact ha.elim
      | listener => simp [step, Server.step, threadStep, listenerStep, hl, hsub]
      | sender | receiver => simp [step, Server.step, threadStep, hl]
      | main => simp [step, Server.step, threadStep, mainStep, hmain]
  | takePacket w s => simp [step, takePacket, (hx.server w).1]
  | replyPacket w => simp [step, replyPacket, (hx.server w).1]
  | mainReply s => simp [step, mainReply, (hx.server s).2.2]
  | _ => exact ha.elim

instance (x : SampleState) : Decidable (AtRest x) :=
  inferInstanceAs (Decidable (∀ s, (x.srv s).pending = [] ∧
    (x.srv s).main.request = none ∧ (x.srv s).main.alive = true))

/-- The labels of the sample run, and `SIGUSR2` at the manager ever after. -/
def restingLabels : ℕ → Label 2 Unit :=
  thenAlways (askRun ++ collectRun ++ transferRun) .usrHandler2

def restingStates : ℕ → SampleState :=
  states (step sampleHash) restingLabels (init 4 2 (EaclIndedh.EaclData 4) Unit)

theorem fairRun_resting : FairRun sampleHash restingLabels restingStates := by
  have hrun : ((run (guarded (step sampleHash) Calm) (askRun ++ collectRun ++ transferRun)
      (init 4 2 (EaclIndedh.EaclData 4) Unit)).any fun x => decide (AtRest x)) = true := by
    decide +kernel
  obtain ⟨y, hy, hrest⟩ := (Option.any_eq_true _ _).mp hrun
  obtain ⟨hisRun, hall⟩ := isRun_of_run AtRest
    (fun z hz => ⟨hz.calm, z.setMgr (Manager.usrHandler2 z.mgr), rfl, hz⟩) hy
    (of_decide_eq_true hrest)
  refine ⟨hisRun, fun a ha => ?_⟩
  apply weaklyFair_of_none (askRun ++ collectRun ++ transferRun).length
  exact fun i hi => AtRest.step_eq_none (hall i hi) ha

end Sample

/-- The sample run from the moment on when the table has been sent out. -/
theorem redistribution_settles_first_round :
    ∃ (x : ℕ → SampleState) (i : ℕ), (x i).log.mlts.length = 1 ∧
      (¬ ∀ s, Finished ((x i).srv s)) ∧ ∃ j, i ≤ j ∧ (x j).log.mlts = (x i).log.mlts ∧
        ∀ s, Finished ((x j).srv s) ∧
          ((x j).srv s).table = lastTable (x i).log.mlts := by
  have hrun : ((run (guarded (step sampleHash) Calm)
      (askRun ++ collectRun ++ transferRun.take 3)
      (init 4 2 (EaclIndedh.EaclData 4) Unit)).any fun x => decide (x.log.mlts.length = 1 ∧
        ¬ ∀ s, Poll.Msg.commit ∉ (x.srv s).pending)) = true := by
    decide +kernel
  obtain ⟨y, hy, hp⟩ := (Option.any_eq_true _ _).mp hrun
  have hi : restingStates (askRun ++ collectRun ++ transferRun.take 3).length = y := by
    have hstates := states_of_run .usrHandler2 (transferRun.drop 3) hy
    rwa [List.append_assoc, List.take_append_drop] at hstates
  obtain ⟨j, hij, hmlts, hj⟩ := redistribution_settles sampleHash restingLabels restingStates
    fairRun_resting (askRun ++ collectRun ++ transferRun.take 3).length
  obtain ⟨hlength, hgoal⟩ := of_decide_eq_true hp
  exact ⟨restingStates, _, by rw [hi]; exact hlength, by rw [hi]; exact hgoal, j, hij, hmlts,
    fun s => ⟨(hj s).1, (hj s).2.1⟩⟩

end MeDiE.System
