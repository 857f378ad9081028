import MeDiE.Verified.Handover

/-!
# Who holds an entry during a hand-over

Until the packet of an entry is taken off the wire the old owner holds it, from then
on the new one.  What a server does for an entry that it regards as its own, it does
while it holds it and no packet of it is under way.
-/

namespace MeDiE.Verified.Handover

variable {σ ι : Type}

/-- The server that holds the entry, be it in a packet on the wire. -/
def State.holder (st : State σ ι) (e : ι) : σ :=
  match st.stage e with
  | .unsent | .wire => st.prev e
  | .unpack | .done => st.cur e

/-- Server `s` holds the entry, and no packet of it is under way. -/
def Open (st : State σ ι) (s : σ) (e : ι) : Prop :=
  (st.stage e = .unsent ∧ s = st.prev e) ∨ (st.stage e = .done ∧ s = st.cur e)

theorem Open.holder {st : State σ ι} {s : σ} {e : ι} (h : Open st s e) :
    s = st.holder e := by
  rcases h with ⟨hstage, hs⟩ | ⟨hstage, hs⟩ <;> rw [State.holder, hstage, hs]

theorem Open.stage_ne {st : State σ ι} {s : σ} {e : ι} (h : Open st s e) :
    st.stage e ≠ .wire ∧ st.stage e ≠ .unpack := by
  rcases h with ⟨hstage, _⟩ | ⟨hstage, _⟩ <;> rw [hstage] <;> exact ⟨by simp, by simp⟩

/-- The stage of one entry stays. -/
theorem Open.congr {st st' : State σ ι} {s : σ} {e : ι} (h : Open st s e)
    (hstage : st'.stage e = st.stage e) (hprev : st'.prev = st.prev)
    (hcur : st'.cur = st.cur) : Open st' s e := by
  rw [Open, hstage, hprev, hcur]
  exact h

theorem holder_congr {st st' : State σ ι} {e : ι} (hstage : st'.stage e = st.stage e)
    (hprev : st'.prev = st.prev) (hcur : st'.cur = st.cur) :
    st'.holder e = st.holder e := by
  rw [State.holder, State.holder, hstage, hprev, hcur]

section Steps

variable [DecidableEq σ] [DecidableEq ι] [Fintype ι]

omit [DecidableEq ι] in
/-- The entry that a sender is about to send has not left. -/
theorem Inv.unsent_of_next {st : State σ ι} (inv : Inv st) {s : σ} {e : ι} {todo : List ι}
    {rcv : Rcv σ ι} (hs : (st.srv s).phase = .moving (.next (e :: todo)) rcv) :
    st.stage e = .unsent ∧ s = st.prev e := by
  have hlost : Lost st.prev st.cur s e := ((inv.server s).lost _ _ hs).2 e (by simp)
  refine ⟨?_, hlost.1.symm⟩
  rw [(inv.server s).unsent e hlost, hs]
  simp

omit [DecidableEq ι] in
/-- An entry that a server regards as its own is open there. -/
theorem Inv.open_of_active {st : State σ ι} (inv : Inv st) {s : σ} {e : ι}
    (h : Active st s e) : Open st s e := by
  rcases (inv.active_iff s e).mp h with ⟨happlied, hs⟩ | ⟨_, hs, hdone⟩
  · by_cases hsame : st.prev e = st.cur e
    · exact Or.inr ⟨inv.same e hsame, hs.trans hsame⟩
    · refine Or.inl ⟨?_, hs⟩
      subst hs
      rw [(inv.server _).unsent e ⟨rfl, Ne.symm hsame⟩]
      cases hphase : (st.srv (st.prev e)).phase with
      | settled => simp [hphase] at happlied
      | applying done => trivial
      | moving snd rcv => simp [hphase] at happlied
  · exact Or.inr ⟨hdone, hs⟩

omit [DecidableEq ι] in
/-- A server that regards an entry as its own is not about to send it. -/
theorem Inv.not_next_of_active {st : State σ ι} (inv : Inv st) {s : σ} {e : ι}
    (h : Active st s e) {todo : List ι} {rcv : Rcv σ ι} :
    (st.srv s).phase ≠ .moving (.next (e :: todo)) rcv := by
  intro hs
  obtain ⟨hstage, _⟩ := inv.unsent_of_next hs
  rcases (inv.active_iff s e).mp h with ⟨happlied, _⟩ | ⟨_, _, hdone⟩
  · rw [hs] at happlied
    exact happlied trivial
  · rw [hdone] at hstage
    cases hstage

omit [DecidableEq ι] in
/-- A server with an entry still to be sent has nothing on the wire. -/
theorem Inv.wire_of_next {st : State σ ι} (inv : Inv st) {s : σ} {todo : List ι}
    {rcv : Rcv σ ι} (hs : (st.srv s).phase = .moving (.next todo) rcv) :
    (st.srv s).wire = none := by
  cases hwire : (st.srv s).wire with
  | none => rfl
  | some p =>
      obtain ⟨hstage, hprev, _⟩ := ((inv.server s).wire p.1 p.2).mp hwire
      have hawaiting := (inv.server s).awaited p.2 hprev (Or.inl hstage)
      rw [hs] at hawaiting
      cases hawaiting

/-- The holder changes when the packet is taken off the wire. -/
theorem Inv.step_holder {st st' : State σ ι} (inv : Inv st) (h : Step st st') (e : ι) :
    st'.holder e = st.holder e ∨
      ∃ s d, (st.srv s).wire = some (d, e) ∧ (st'.srv s).wire = none := by
  cases h with
  | publish new hsettled =>
      have hdone := inv.all_done hsettled e
      left
      by_cases he : st.cur e = new e <;> simp [State.holder, hdone, he]
  | @send s i todo rcv hs =>
      left
      by_cases he : e = i
      · subst he
        simp [State.holder, State.mark, State.set, (inv.unsent_of_next hs).1]
      · exact holder_congr (Function.update_of_ne he _ _) rfl rfl
  | @take w s i snd left hw hwire hne =>
      by_cases he : e = i
      · subst he
        right
        refine ⟨s, w, hwire, ?_⟩
        show (Function.update (Function.update st.srv s _) w _ s).wire = none
        rw [Function.update_of_ne hne, Function.update_self]
      · exact Or.inl (holder_congr (Function.update_of_ne he _ _) rfl rfl)
  | @«open» w s i snd left hw =>
      left
      by_cases he : e = i
      · subst he
        have hstage := ((inv.server w).inHand s e).mp (by rw [hw]; rfl)
        simp [State.holder, State.mark, State.set, hstage.1]
      · exact holder_congr (Function.update_of_ne he _ _) rfl rfl
  | apply | launch | clear | reply | acked | settle => exact Or.inl (holder_congr rfl rfl rfl)

/-- An open entry stays open until it is sent. -/
theorem Inv.step_open {st st' : State σ ι} (inv : Inv st) (h : Step st st') {s : σ} {e : ι}
    (hopen : Open st s e) :
    Open st' s e ∨ ∃ todo rcv, (st.srv s).phase = .moving (.next (e :: todo)) rcv ∧
      (st'.srv s).wire = some (st.cur e, e) := by
  cases h with
  | publish new hsettled =>
      left
      have hdone := inv.all_done hsettled e
      have hs : s = st.cur e := by
        rcases hopen with ⟨hstage, _⟩ | ⟨_, hs⟩
        · rw [hdone] at hstage
          cases hstage
        · exact hs
      by_cases he : st.cur e = new e
      · exact Or.inr ⟨by simp [he], hs.trans he⟩
      · exact Or.inl ⟨by simp [he], hs⟩
  | @send w i todo rcv hw =>
      by_cases he : e = i
      · subst he
        obtain ⟨hstage, hprev⟩ := inv.unsent_of_next hw
        have hsw : s = w := by
          rcases hopen with ⟨_, hs⟩ | ⟨hdone, _⟩
          · rw [hs, hprev]
          · rw [hstage] at hdone
            cases hdone
        subst hsw
        right
        refine ⟨todo, rcv, hw, ?_⟩
        show (Function.update st.srv s _ s).wire = _
        rw [Function.update_self]
      · exact Or.inl (hopen.congr (Function.update_of_ne he _ _) rfl rfl)
  | @take w w' i snd left hw hwire hne =>
      have he : e ≠ i := by
        rintro rfl
        exact hopen.stage_ne.1 (((inv.server w').wire w e).mp hwire).1
      exact Or.inl (hopen.congr (Function.update_of_ne he _ _) rfl rfl)
  | @«open» w w' i snd left hw =>
      have he : e ≠ i := by
        rintro rfl
        exact hopen.stage_ne.2 (((inv.server w).inHand w' e).mp (by rw [hw]; rfl)).1
      exact Or.inl (hopen.congr (Function.update_of_ne he _ _) rfl rfl)
  | apply | launch | clear | reply | acked | settle => exact Or.inl (hopen.congr rfl rfl rfl)

omit [DecidableEq ι] in
/-- When the assignment is settled, its owners hold the entries. -/
theorem Inv.holder_of_settled {st : State σ ι} (inv : Inv st)
    (hsettled : ∀ s, (st.srv s).phase = .settled) (e : ι) : st.holder e = st.cur e := by
  rw [State.holder, inv.all_done hsettled e]

end Steps

end MeDiE.Verified.Handover
