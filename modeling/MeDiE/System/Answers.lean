import MeDiE.System.Replicas
import MeDiE.System.Rounds

/-!
# The answers that the manager waits for

While it collects, the manager counts one `EACL` from every server.  A server that
is in a later epoch when it looks at the `ASK` throws it away, and then nothing
is left that could make the count complete.  In the runs in which this does not
happen every missing answer is still being worked on.
-/

namespace MeDiE.Server

open MeDiE.Verified

variable {n nb : Nat} {A C : Type}

/-- The epoch of the `ASK` a listener has in hand and not passed on. -/
def epochInHand : Listener n nb → List Nat
  | .checkEpoch k => [k]
  | .waitEpoch k => [k]
  | _ => []

def askedEpochs : List (FromManager n nb) → List Nat
  | [] => []
  | .ask k :: sub => k :: askedEpochs sub
  | .mlt _ :: sub => askedEpochs sub

/-- The epochs a server is asked for. -/
def State.asked (srv : State n nb A C) : List Nat :=
  epochInHand srv.listener ++ askedEpochs srv.sub

/-- `ASK(k)` is not delivered yet, or is being handled.  Once it has compared the
epochs a listener has no use for the number. -/
def Working (srv : State n nb A C) (k : Nat) : Prop :=
  .ask k ∈ srv.sub ∨ srv.listener = .checkEpoch k ∨ srv.listener = .waitEpoch k ∨
    srv.listener = .readSai ∨ ∃ sai, srv.listener = .sendEacl sai

theorem askedEpochs_append (sub sub' : List (FromManager n nb)) :
    askedEpochs (sub ++ sub') = askedEpochs sub ++ askedEpochs sub' := by
  induction sub with
  | nil => rfl
  | cons packet sub ih =>
      cases packet with
      | ask k => exact congrArg (k :: ·) ih
      | mlt m => exact ih

theorem mem_askedEpochs {sub : List (FromManager n nb)} {k : Nat} :
    k ∈ askedEpochs sub ↔ .ask k ∈ sub := by
  induction sub with
  | nil => simp [askedEpochs]
  | cons packet sub ih => cases packet <;> simp [askedEpochs, ih]

/-- Without a poll on its hands a server is asked for no epoch. -/
theorem asked_eq_nil {srv : State n nb A C} (h : .ask ∉ srv.pending) : srv.asked = [] := by
  rw [State.pending, List.mem_append, not_or] at h
  rw [State.asked, List.append_eq_nil_iff]
  constructor
  · cases hl : srv.listener <;> simp_all [handling, epochInHand]
  · apply List.eq_nil_iff_forall_not_mem.mpr
    intro k hk
    apply h.2
    exact List.mem_map.mpr ⟨.ask k, mem_askedEpochs.mp hk, rfl⟩

/-- A poll on a server's hands is an `ASK` it is working on. -/
theorem working_of_pending {srv : State n nb A C} (h : .ask ∈ srv.pending) {k : Nat}
    (hk : ∀ j ∈ srv.asked, j = k) : Working srv k := by
  rw [State.pending, List.mem_append] at h
  rcases h with hhand | hsub
  · cases hl : srv.listener with
    | checkEpoch j =>
        have hj : j = k := hk j (by simp [State.asked, hl, epochInHand])
        exact Or.inr (Or.inl (by rw [hl, hj]))
    | waitEpoch j =>
        have hj : j = k := hk j (by simp [State.asked, hl, epochInHand])
        exact Or.inr (Or.inr (Or.inl (by rw [hl, hj])))
    | readSai => exact Or.inr (Or.inr (Or.inr (Or.inl hl)))
    | sendEacl sai => exact Or.inr (Or.inr (Or.inr (Or.inr ⟨sai, hl⟩)))
    | _ => simp [hl, handling] at hhand
  · obtain ⟨packet, hmem, hkind⟩ := List.mem_map.mp hsub
    cases packet with
    | ask j =>
        have hj : j = k :=
          hk j (List.mem_append_right _ (mem_askedEpochs.mpr hmem))
        exact Or.inl (hj ▸ hmem)
    | mlt m => cases hkind

/-- With nothing on its hands a server works on no `ASK`. -/
theorem not_working_of_pending {srv : State n nb A C} (h : srv.pending = []) (k : Nat) :
    ¬ Working srv k := by
  rw [State.pending, List.append_eq_nil_iff, List.map_eq_nil_iff] at h
  rintro (hsub | hl | hl | hl | ⟨sai, hl⟩)
  · simp [h.2] at hsub
  all_goals
    rw [hl] at h
    cases h.1

variable [Eacl A n]

/-- A step of a server asks it for no new epoch. -/
theorem Step.asked {s : Fin nb} {srv srv' : State n nb A C} {l : Label}
    (h : Step s srv l srv') : ∀ k ∈ srv'.asked, k ∈ srv.asked := by
  intro k hk
  cases h with
  | recvAsk epochNeeded sub hl hsub =>
      simpa [State.asked, hl, hsub, epochInHand, askedEpochs] using hk
  | recvMlt tempMlt sub hl hsub =>
      simpa [State.asked, hl, hsub, epochInHand, askedEpochs] using hk
  | oldEpoch epochNeeded hl hepoch => exact List.mem_append_right _ hk
  | newEpoch epochNeeded hl hepoch =>
      simpa [State.asked, hl, epochInHand] using hk
  | epochReached epochNeeded hl hepoch => exact List.mem_append_right _ hk
  | usr2 | calculateSai | setEaclEpoch | resetAccess | threshold | noRebalancing
  | askRebalancing | incrAccess | storage | crash => exact hk
  | _ => exact List.mem_append_right _ hk

/-- Whoever does not throw the `ASK` away works on it until the `EACL` is sent. -/
theorem Step.working {s : Fin nb} {srv srv' : State n nb A C} {l : Label} {k : Nat}
    (h : Step s srv l srv') (hk : Working srv k)
    (hanswers : ∀ j, l = .listener → srv.listener = .checkEpoch j → srv.eaclEpoch ≤ j) :
    Working srv' k ∨ ∃ sai loadLvl, srv'.push = srv.push ++ [.eacl s sai loadLvl] := by
  cases h with
  | sendEacl sai hl => exact Or.inr ⟨sai, _, rfl⟩
  | oldEpoch epochNeeded hl hepoch =>
      exact absurd (hanswers _ rfl hl) (Nat.not_le_of_lt hepoch)
  | recvAsk epochNeeded sub hl hsub =>
      apply Or.inl
      simp only [Working, hl, hsub, List.mem_cons, FromManager.ask.injEq] at hk
      simp only [Working, Listener.checkEpoch.injEq]
      rcases hk with (heq | hmem) | hfalse
      · exact Or.inr (Or.inl heq.symm)
      · exact Or.inl hmem
      · simp at hfalse
  | recvMlt tempMlt sub hl hsub =>
      apply Or.inl
      simp only [Working, hl, hsub, List.mem_cons] at hk
      simpa [Working] using hk
  | newEpoch epochNeeded hl hepoch =>
      apply Or.inl
      simpa [Working, hl] using hk
  | epochReached epochNeeded hl hepoch => exact Or.inl (by simp [Working])
  | readSai hl => exact Or.inl (by simp [Working])
  | usr2 | calculateSai | setEaclEpoch | resetAccess | threshold | noRebalancing
  | askRebalancing | incrAccess | storage | crash => exact Or.inl hk
  | _ =>
      apply Or.inl
      simpa [Working, *] using hk

end MeDiE.Server

namespace MeDiE.System

open MeDiE.Server
open MeDiE.Storage
open MeDiE.Verified
open MeDiE.Verified.Transition

variable {n nb : Nat} {A C : Type} [Eacl A n] [DecidableEq C]

/-- The `ASK`s on the servers' hands are the last one sent, and while answers are
collected there is one. -/
structure AskedInv (x : State n nb A C) : Prop where
  last : ∀ s, ∀ k ∈ (x.srv s).asked, x.log.asks.getLast? = some k
  some : ∀ nbRcv, x.mgr.point = .collect nbRcv → x.log.asks ≠ []

omit [Eacl A n] [DecidableEq C] in
/-- The manager asks only when no server has an `ASK` on its hands. -/
theorem asked_of_rest {x : State n nb A C} {drops : Prop} (inv : Poll.Inv drops (pollOf x))
    (hmode : modeOf x.mgr.point = .rest) (s : Fin nb) : (x.srv s).asked = [] := by
  apply asked_eq_nil
  have hpending : (x.srv s).pending = [] ∨ (x.srv s).pending = [.commit] :=
    (inv.rest hmode s).1
  rcases hpending with h | h <;> simp [h]

omit [Eacl A n] [DecidableEq C] in
theorem asked_external {srv srv' : Server.State n nb A C} (h : External srv srv') :
    ∀ k ∈ srv'.asked, k ∈ srv.asked := by
  intro k hk
  cases h with
  | take sender source packet left hl =>
      simpa [Server.State.asked, hl, epochInHand] using hk
  | reply sender source entry left hl =>
      simpa [Server.State.asked, hl, epochInHand] using hk
  | _ => exact hk

omit [Eacl A n] [DecidableEq C] in
theorem asked_publish (x : State n nb A C) (packet : FromManager n nb) (s : Fin nb) :
    ((x.publish packet).srv s).asked = (x.srv s).asked ++ askedEpochs [packet] := by
  simp [Server.State.asked, askedEpochs_append]

theorem AskedInv.step {hash : Key → Fin n} {x y : State n nb A C} {l : Label nb C}
    (hpoll : Poll.Inv True (pollOf x)) (inv : AskedInv x) (h : Step hash x l y) :
    AskedInv y := by
  have h' := h
  have hsrv : l ≠ .managerSend → ∀ s, ∀ k ∈ (y.srv s).asked, k ∈ (x.srv s).asked := by
    intro hl
    apply h.servers_of_ne hl (P := fun s srv => ∀ k ∈ srv.asked, k ∈ (x.srv s).asked)
    · exact fun s k hk => hk
    · exact fun s l' srv _ hs => hs.asked
    · exact fun s srv srv' hext hs k hk => hs k (asked_external hext k hk)
  cases h with
  | sendAsk epoch hp =>
      have hempty := asked_of_rest hpoll (by simp [hp, modeOf])
      constructor
      · intro s k hk
        rw [setLog_srv, asked_publish, setMgr_srv, hempty, List.nil_append,
          askedEpochs, askedEpochs, List.mem_singleton] at hk
        simp [hk]
      · intro nbRcv _
        simp
  | sendMlt hp =>
      constructor
      · intro s k hk
        rw [setLog_srv, asked_publish, setMgr_srv, askedEpochs, askedEpochs,
          List.append_nil] at hk
        exact inv.last s k hk
      · intro nbRcv hp'
        cases hp'
  | manager mgr h =>
      constructor
      · exact fun s k hk => inv.last s k hk
      · intro nbRcv hp
        cases h <;> cases hp
  | recvHelp s epoch push hp hpush =>
      constructor
      · exact fun w k hk => inv.last w k (hsrv (by simp) w k hk)
      · intro nbRcv hp'
        cases hp'
  | recvEacl s id sai loadLvl nbRcv push hp hrcv hpush =>
      constructor
      · exact fun w k hk => inv.last w k (hsrv (by simp) w k hk)
      · exact fun _ _ => inv.some nbRcv hp
  | usrHandler2 | discardEacl | discardHelp | server | takePacket | replyPacket =>
      constructor
      · exact fun w k hk => inv.last w k (hsrv (by simp) w k hk)
      · exact inv.some
  | _ =>
      have hsame := h'.sameRounds rfl
      constructor
      · intro w k hk
        rw [hsame.asks]
        exact inv.last w k (hsrv (by simp) w k hk)
      · rw [hsame.mgr, hsame.asks]
        exact inv.some

theorem askedInv_of_reachable [NeZero nb] {hash : Key → Fin n} {x : State n nb A C}
    (h : Reachable hash x) : AskedInv x := by
  apply h.invariant
  · exact
      { last := fun s k hk => by cases hk
        some := fun _ hp => by cases hp }
  · exact fun x l y hx inv hstep => inv.step (pollInv_of_reachable hx) hstep

/-! ## Runs in which every server answers -/

omit [Eacl A n] [DecidableEq C] in
/-- An answer that is counted is on the socket. -/
theorem eacl_of_replies {s : Fin nb} {srv : Server.State n nb A C} (hown : OwnEacls s srv)
    (h : 0 < srv.replies) : ∃ sai loadLvl, .eacl s sai loadLvl ∈ srv.push := by
  obtain ⟨packet, hmem, hpacket⟩ := List.countP_pos_iff.mp h
  cases packet with
  | help epoch => cases hpacket
  | eacl id sai loadLvl =>
      have hid := hown id sai loadLvl hmem
      exact ⟨sai, loadLvl, hid ▸ hmem⟩

theorem working_step {hash : Key → Fin n} {x y : State n nb A C} {l : Label nb C}
    (hgood : Answers l x) (h : Step hash x l y) (s : Fin nb) (k : Nat)
    (hk : Working (x.srv s) k) :
    Working (y.srv s) k ∨
      ∃ sai loadLvl, (y.srv s).push = (x.srv s).push ++ [.eacl s sai loadLvl] := by
  have h' := h
  cases h with
  | server w l srv h =>
      by_cases hw : s = w
      · subst hw
        rw [setSrv_srv, Function.update_self]
        apply h.working hk
        intro j hl hj
        subst hl
        simpa [Answers, hj] using hgood
      · rw [setSrv_srv, Function.update_of_ne hw]
        exact Or.inl hk
  | sendAsk epoch hp =>
      apply Or.inl
      rcases hk with hsub | hlistener
      · exact Or.inl (List.mem_append_left _ hsub)
      · exact Or.inr hlistener
  | sendMlt hp =>
      apply Or.inl
      rcases hk with hsub | hlistener
      · exact Or.inl (List.mem_append_left _ hsub)
      · exact Or.inr hlistener
  | _ =>
      apply Or.inl
      revert s
      apply h'.servers_of_ne (P := fun s srv => Working (x.srv s) k → Working srv k)
      · simp
      · exact fun s hk => hk
      · intro s l' srv hl
        cases hl
      · intro s srv srv' hext hs hk
        have hk := hs hk
        cases hext with
        | take sender source packet left hl => simpa [Working, hl] using hk
        | reply sender source entry left hl => simpa [Working, hl] using hk
        | _ => exact hk

/-- In a run in which no listener compares an `ASK` with a list of a later epoch: while the
manager collects, every server's answer to the last `ASK` has been counted, is on its
socket, or is being worked on; and a server stops working on an `ASK` only by sending its
answer. -/
theorem collecting_answered [NeZero nb] (hash : Key → Fin n) (x : State n nb A C)
    (hx : Reach (init n nb A C) (StepsIf (step hash) Answers) x) :
    (∀ nbRcv, x.mgr.point = .collect nbRcv →
      ∃ k, x.log.asks.getLast? = some k ∧
        ∀ s, s ∈ x.log.reports.map Report.id ∨
          (∃ sai loadLvl, .eacl s sai loadLvl ∈ (x.srv s).push) ∨
          Working (x.srv s) k) ∧
    ∀ l y, Answers l x → step hash l x = some y → ∀ s k, Working (x.srv s) k →
      Working (y.srv s) k ∨
        ∃ sai loadLvl, (y.srv s).push = (x.srv s).push ++ [.eacl s sai loadLvl] := by
  have hreach : Reachable hash x := hx.mono fun _ _ => StepsIf.steps
  have hasked := askedInv_of_reachable hreach
  have hpoll : Poll.Inv False (pollOf x) := by
    apply pollInv_of_run hash ?_ hx
    rintro x y ⟨l, hgood, hl⟩
    exact ⟨l, Or.inr hgood, hl⟩
  constructor
  · intro nbRcv hp
    obtain ⟨k, hk⟩ := Option.ne_none_iff_exists'.mp
      (mt List.getLast?_eq_none_iff.mp (hasked.some nbRcv hp))
    refine ⟨k, hk, fun s => ?_⟩
    by_cases hgot : s ∈ x.log.reports.map Report.id
    · exact Or.inl hgot
    · have hmode : (pollOf x).mode = .collecting := by simp [pollOf, modeOf, hp]
      rcases hpoll.waiting hmode hgot with hreplies | hpending
      · have hone : 0 < (x.srv s).replies := by
          change (x.srv s).replies = 1 at hreplies
          omega
        exact Or.inr (Or.inl (eacl_of_replies (ownEacls_of_reachable hreach s) hone))
      · apply Or.inr ∘ Or.inr
        apply working_of_pending hpending
        intro j hj
        have hlast := hasked.last s j hj
        rw [hk] at hlast
        exact (Option.some.inj hlast).symm
  · exact fun l y hgood hl s k hk => working_step hgood (step_cases hl) s k hk

/-! ## Two runs -/

/-- Both servers have the `ASK` of the first round before them. -/
theorem collecting_answered_first_round :
    ∃ x : SampleState, x.mgr.point = .collect 0 ∧ ∃ k, x.log.asks.getLast? = some k ∧
      ∀ s, s ∈ x.log.reports.map Report.id ∨
        (∃ sai loadLvl, .eacl s sai loadLvl ∈ (x.srv s).push) ∨ Working (x.srv s) k := by
  have hrun : ((run (guarded (step sampleHash) Answers)
      (askRun ++ threadRun 0 .listener 5 ++ threadRun 1 .listener 2)
      (init 4 2 (EaclIndedh.EaclData 4) Unit)).any
        fun x => decide (x.mgr.point = .collect 0)) = true := by
    decide +kernel
  obtain ⟨x, hx, hp⟩ := (Option.any_eq_true _ _).mp hrun
  have hp' := of_decide_eq_true hp
  exact ⟨x, hp', (collecting_answered sampleHash x (reach_of_guarded_run _ hx)).1 0 hp'⟩

/-- Server 1 gets its second `SIGUSR2` before its listener looks at `ASK(1)`. -/
theorem exists_answer_missing :
    ∃ x : SampleState, Reachable sampleHash x ∧ x.mgr.point = .collect 0 ∧
      x.log.asks.getLast? = some 1 ∧ 1 ∉ x.log.reports.map Report.id ∧
        (∀ sai loadLvl, .eacl 1 sai loadLvl ∉ (x.srv 1).push) ∧ ¬ Working (x.srv 1) 1 := by
  obtain ⟨x, hx, hp⟩ := exists_of_sampleRun
    (askRun ++ .server 1 .usr2 :: calculateRun 1 0 ++ threadRun 1 (.handler 0) 1 ++
      threadRun 1 .listener 2)
    (fun x => decide (x.mgr.point = .collect 0 ∧ x.log.asks.getLast? = some 1 ∧
      1 ∉ x.log.reports.map Report.id ∧ (x.srv 1).pending = [] ∧ (x.srv 1).replies = 0))
    (by decide +kernel)
  obtain ⟨hpoint, hasks, hreports, hpending, hreplies⟩ := of_decide_eq_true hp
  refine ⟨x, hx, hpoint, hasks, hreports, ?_, not_working_of_pending hpending 1⟩
  intro sai loadLvl hmem
  exact List.countP_eq_zero.mp hreplies _ hmem rfl

end MeDiE.System
