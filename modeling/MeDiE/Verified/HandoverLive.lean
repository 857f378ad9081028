import MeDiE.Verified.Handover

/-!
# A hand-over does not get stuck

A sender that waits for an acknowledgement will get it: its entry is on the wire or is
being unpacked, or it has been unpacked and the answer is being sent or has come in.  So
as long as not every server has settled the published assignment, some server can go on.
-/

namespace MeDiE.Verified.Handover

variable {σ ι : Type}

/-- An entry that has arrived and is still awaited is being acknowledged. -/
def AckInv (st : State σ ι) : Prop :=
  ∀ s e, (st.srv s).phase.awaiting = some e → st.stage e = .done →
    (st.srv s).ack = true ∨ (st.srv (st.cur e)).phase.opened = some (s, e)

theorem ackInv_init (own : ι → σ) : AckInv (init own) := by
  intro s e h
  cases h

section Steps

variable [DecidableEq σ] [DecidableEq ι]

omit [DecidableEq ι] in
/-- A server changes that waits for nothing new and does not close what it has opened. -/
theorem AckInv.set {st : State σ ι} (inv : AckInv st) {s : σ} {srv : Server σ ι}
    (hawaiting : ∀ e, srv.phase.awaiting = some e →
      (st.srv s).phase.awaiting = some e ∧ ((st.srv s).ack = true → srv.ack = true))
    (hopened : ∀ p, (st.srv s).phase.opened = some p → srv.phase.opened = some p) :
    AckInv (st.set s srv) := by
  have hopen : ∀ w p, (st.srv w).phase.opened = some p →
      (Function.update st.srv s srv w).phase.opened = some p := by
    intro w p hp
    by_cases hw : w = s
    · subst hw
      rw [Function.update_self]
      exact hopened p hp
    · rwa [Function.update_of_ne hw]
  intro w e he hdone
  change (Function.update st.srv s srv w).phase.awaiting = some e at he
  show (Function.update st.srv s srv w).ack = true ∨
    (Function.update st.srv s srv (st.cur e)).phase.opened = some (w, e)
  by_cases hw : w = s
  · subst hw
    rw [Function.update_self] at he
    obtain ⟨hold, hack⟩ := hawaiting e he
    rw [Function.update_self]
    exact (inv w e hold hdone).imp hack (hopen _ _)
  · rw [Function.update_of_ne hw] at he
    rw [Function.update_of_ne hw]
    exact (inv w e he hdone).imp_right (hopen _ _)

omit [DecidableEq σ] in
/-- An entry is moved on that has not arrived yet. -/
theorem AckInv.mark {st : State σ ι} (inv : AckInv st) {e : ι} {stage : Stage}
    (hstage : stage ≠ .done) : AckInv (st.mark e stage) := by
  intro s i hi hdone
  change Function.update st.stage e stage i = .done at hdone
  apply inv s i hi
  by_cases hie : i = e
  · subst hie
    rw [Function.update_self] at hdone
    exact absurd hdone hstage
  · rwa [Function.update_of_ne hie] at hdone

variable [Fintype ι]

theorem AckInv.step {st st' : State σ ι} (ack : AckInv st) (inv : Inv st)
    (h : Step st st') : AckInv st' := by
  cases h with
  | publish new hsettled =>
      intro s e h
      cases h
  | apply hs => exact ack.set (by simp) (by simp [hs])
  | launch hs hall htodo hmem hleft => exact ack.set (by simp) (by simp [hs])
  | @send s e todo rcv hs =>
      -- what the sender begins to wait for is on the wire
      intro w i hi hdone
      change Function.update st.stage e .wire i = .done at hdone
      have hie : i ≠ e := by
        rintro rfl
        rw [Function.update_self] at hdone
        cases hdone
      rw [Function.update_of_ne hie] at hdone
      change (Function.update st.srv s _ w).phase.awaiting = some i at hi
      have hws : w ≠ s := by
        rintro rfl
        rw [Function.update_self] at hi
        exact hie (by simpa using hi.symm)
      rw [Function.update_of_ne hws] at hi
      show (Function.update st.srv s _ w).ack = true ∨
        (Function.update st.srv s _ (st.cur i)).phase.opened = some (w, i)
      rw [Function.update_of_ne hws]
      refine (ack w i hi hdone).imp_right fun hopened => ?_
      by_cases hc : st.cur i = s
      · rw [hc] at hopened ⊢
        rw [Function.update_self]
        simpa [hs] using hopened
      · rwa [Function.update_of_ne hc]
  | clear hs => exact ack.set (by simp [hs]) (by simp [hs])
  | @take w s e snd left hw hwire hne =>
      refine (AckInv.set (ack.set ?_ ?_) ?_ ?_).mark (by simp)
      · exact fun e he => ⟨he, id⟩
      · exact fun p hp => hp
      · rw [set_srv, Function.update_of_ne hne.symm, hw]
        exact fun e he => ⟨he, id⟩
      · rw [set_srv, Function.update_of_ne hne.symm, hw]
        exact fun p hp => by cases hp
  | @«open» w s e snd left hw =>
      obtain ⟨hstage, hs, hcur⟩ := ((inv.server w).inHand s e).mp (by simp [hw])
      have hset : AckInv (st.set w
          { st.srv w with
            phase := .moving snd (.reply s e left)
            busy := Function.update (st.srv w).busy e false }) :=
        ack.set (by simp [hw]) (by simp [hw])
      intro v i hi hdone
      by_cases hie : i = e
      · subst hie
        right
        have hv : v = s := by
          have hlost : (st.srv v).phase.awaiting = some i := by
            by_cases hvw : v = w
            · subst hvw
              simpa [State.mark, State.set, hw] using hi
            · simpa [State.mark, State.set, hvw] using hi
          rw [← ((inv.server v).lost_of_awaiting hlost).1, hs]
        subst hv
        show (Function.update st.srv w _ (st.cur i)).phase.opened = _
        rw [← hcur, Function.update_self]
        rfl
      · apply hset v i hi
        rw [mark_stage, Function.update_of_ne hie] at hdone
        exact hdone
  | @reply w s e snd left hw hne =>
      intro v i hi hdone
      change (Function.update (Function.update st.srv s _) w _ v).phase.awaiting =
        some i at hi
      have hi' : (st.srv v).phase.awaiting = some i := by
        by_cases hvw : v = w
        · subst hvw
          rw [Function.update_self] at hi
          rw [hw]
          exact hi
        · rw [Function.update_of_ne hvw] at hi
          by_cases hvs : v = s
          · subst hvs
            rwa [Function.update_self] at hi
          · rwa [Function.update_of_ne hvs] at hi
      show (Function.update (Function.update st.srv s _) w _ v).ack = true ∨
        (Function.update (Function.update st.srv s _) w _ (st.cur i)).phase.opened = _
      rcases ack v i hi' hdone with hack | hopened
      · left
        by_cases hvw : v = w
        · subst hvw
          rw [Function.update_self]
          exact hack
        · rw [Function.update_of_ne hvw]
          by_cases hvs : v = s
          · subst hvs
            rw [Function.update_self]
          · rwa [Function.update_of_ne hvs]
      · by_cases hc : st.cur i = w
        · -- this is the answer that is sent
          rw [hc, hw] at hopened
          have hvs : s = v ∧ e = i := by simpa using hopened
          left
          rw [← hvs.1, Function.update_of_ne hne, Function.update_self]
        · right
          rw [Function.update_of_ne hc]
          by_cases hcs : st.cur i = s
          · rw [hcs] at hopened ⊢
            rwa [Function.update_self]
          · rwa [Function.update_of_ne hcs]
  | acked hs hack => exact ack.set (by simp) (by simp [hs])
  | settle hs => exact ack.set (by simp) (by simp [hs])

/-! ## Progress -/

/-- The rows are taken over one after the other, and then the work begins. -/
theorem step_of_applying {st : State σ ι} {s : σ} {done : Set ι}
    (hs : (st.srv s).phase = .applying done) : ∃ st', Step st st' := by
  by_cases hall : ∀ e, e ∈ done
  · have hmem : ∀ e, e ∈ (Finset.univ.filter
        (fun e => st.prev e = s ∧ st.cur e ≠ s)).toList ↔ Lost st.prev st.cur s e := by
      simp
    exact ⟨_, Step.launch hs hall (Finset.nodup_toList _) hmem rfl⟩
  · obtain ⟨e, _⟩ := not_forall.mp hall
    exact ⟨_, Step.apply (e := e) hs⟩

/-- What has been opened can be acknowledged. -/
theorem Inv.step_of_opened {st : State σ ι} (inv : Inv st) {w s : σ} {e : ι}
    (hopened : (st.srv w).phase.opened = some (s, e)) : ∃ st', Step st st' := by
  have hw := ((inv.server w).opened s e hopened).1
  have hlost := (inv.server s).lost_of_awaiting (inv.opened w s e hopened).1
  have hne : s ≠ w := fun heq => hlost.2 (by rw [← hw, heq])
  cases hphase : (st.srv w).phase with
  | settled => simp [hphase] at hopened
  | applying done => simp [hphase] at hopened
  | moving snd rcv =>
      cases rcv with
      | recv left => simp [hphase] at hopened
      | unpack src i left => simp [hphase] at hopened
      | reply src i left =>
          have heq : src = s ∧ i = e := by simpa [hphase] using hopened
          obtain ⟨rfl, rfl⟩ := heq
          exact ⟨_, Step.reply hphase hne⟩

/-- The receiver that a packet on the wire is for can take it or is at work. -/
theorem Inv.step_of_wire {st : State σ ι} (inv : Inv st) {e : ι}
    (hstage : st.stage e = .wire) : ∃ st', Step st st' := by
  have hwire : (st.srv (st.prev e)).wire = some (st.cur e, e) :=
    ((inv.server _).wire _ e).mpr ⟨hstage, rfl, rfl⟩
  have hne : st.prev e ≠ st.cur e := by
    intro heq
    have hdone := inv.same e heq
    rw [hstage] at hdone
    cases hdone
  have hleft := (inv.server (st.cur e)).left
  have hmissing : missing st.prev st.cur st.stage (st.cur e) ≠ 0 := by
    intro hzero
    have hdone := missing_eq_zero.mp hzero e rfl hne
    rw [hstage] at hdone
    cases hdone
  cases hphase : (st.srv (st.cur e)).phase with
  | settled =>
      rw [hphase, Phase.left] at hleft
      exact absurd hleft hmissing
  | applying done => exact step_of_applying hphase
  | moving snd rcv =>
      cases rcv with
      | recv left =>
          rw [hphase, Phase.left, Rcv.left] at hleft
          cases left with
          | zero => exact absurd hleft hmissing
          | succ left => exact ⟨_, Step.take hphase hwire hne⟩
      | unpack src i left => exact ⟨_, Step.open hphase⟩
      | reply src i left =>
          exact inv.step_of_opened (s := src) (e := i) (by rw [hphase]; rfl)

/-- An entry that is being unpacked can be opened. -/
theorem Inv.step_of_unpack {st : State σ ι} (inv : Inv st) {e : ι}
    (hstage : st.stage e = .unpack) : ∃ st', Step st st' := by
  have hunpacking : (st.srv (st.cur e)).phase.unpacking = some (st.prev e, e) :=
    ((inv.server _).inHand _ e).mpr ⟨hstage, rfl, rfl⟩
  cases hphase : (st.srv (st.cur e)).phase with
  | settled => simp [hphase] at hunpacking
  | applying done => simp [hphase] at hunpacking
  | moving snd rcv =>
      cases rcv with
      | recv left => simp [hphase] at hunpacking
      | unpack src i left => exact ⟨_, Step.open hphase⟩
      | reply src i left => simp [hphase] at hunpacking

/-- A sender that waits for an acknowledgement is waiting for a server that can go on, or
has been answered. -/
theorem Inv.step_of_cleared {st : State σ ι} (inv : Inv st) (ack : AckInv st) {s : σ}
    {e : ι} {todo : List ι} {rcv : Rcv σ ι}
    (hs : (st.srv s).phase = .moving (.cleared e todo) rcv) : ∃ st', Step st st' := by
  have hawaiting : (st.srv s).phase.awaiting = some e := by simp [hs]
  cases hstage : st.stage e with
  | unsent =>
      -- it has been sent
      have hlost := (inv.server s).lost_of_awaiting hawaiting
      have hunsent := ((inv.server s).unsent e hlost).mp hstage
      have hnodup := ((inv.server s).lost _ _ hs).1
      simp_all
  | wire => exact inv.step_of_wire hstage
  | unpack => exact inv.step_of_unpack hstage
  | done =>
      rcases ack s e hawaiting hstage with hack | hopened
      · exact ⟨_, Step.acked hs hack⟩
      · exact inv.step_of_opened hopened

/-- A receiver that waits for a packet is waiting for a server that can go on. -/
theorem Inv.step_of_missing {st : State σ ι} (inv : Inv st) (ack : AckInv st) {w : σ}
    {snd : Snd ι} {left : Nat} (hw : (st.srv w).phase = .moving snd (.recv (left + 1))) :
    ∃ st', Step st st' := by
  have hleft := (inv.server w).left
  rw [hw, Phase.left, Rcv.left] at hleft
  have hmissing : missing st.prev st.cur st.stage w ≠ 0 := by omega
  rw [Ne, missing_eq_zero] at hmissing
  push Not at hmissing
  obtain ⟨e, hcur, hprev, hdone⟩ := hmissing
  cases hstage : st.stage e with
  | done => exact absurd hstage hdone
  | wire => exact inv.step_of_wire hstage
  | unpack => exact inv.step_of_unpack hstage
  | unsent =>
      have hlost : Lost st.prev st.cur (st.prev e) e := ⟨rfl, by rw [hcur]; exact Ne.symm hprev⟩
      have hunsent := ((inv.server (st.prev e)).unsent e hlost).mp hstage
      cases hphase : (st.srv (st.prev e)).phase with
      | settled => simp [hphase] at hunsent
      | applying done => exact step_of_applying hphase
      | moving snd' rcv' =>
          rw [hphase, Phase.Unsent] at hunsent
          cases snd' with
          | next todo =>
              cases todo with
              | nil => simp at hunsent
              | cons i todo => exact ⟨_, Step.send hphase⟩
          | sent i todo => exact ⟨_, Step.clear hphase⟩
          | cleared i todo => exact inv.step_of_cleared ack hphase

/-- As long as not every server has settled the assignment, a server can go on. -/
theorem Inv.progress {st : State σ ι} (inv : Inv st) (ack : AckInv st) {s : σ}
    (hs : (st.srv s).phase ≠ .settled) : ∃ st', Step st st' := by
  cases hphase : (st.srv s).phase with
  | settled => exact absurd hphase hs
  | applying done => exact step_of_applying hphase
  | moving snd rcv =>
      cases snd with
      | next todo =>
          cases todo with
          | cons e todo => exact ⟨_, Step.send hphase⟩
          | nil =>
              cases rcv with
              | unpack src i left => exact ⟨_, Step.open hphase⟩
              | reply src i left =>
                  exact inv.step_of_opened (s := src) (e := i) (by rw [hphase]; rfl)
              | recv left =>
                  cases left with
                  | zero => exact ⟨_, Step.settle hphase⟩
                  | succ left => exact inv.step_of_missing ack hphase
      | sent e todo => exact ⟨_, Step.clear hphase⟩
      | cleared e todo => exact inv.step_of_cleared ack hphase

end Steps

end MeDiE.Verified.Handover
