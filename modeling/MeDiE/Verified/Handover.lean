import MeDiE.Verified.Transition

/-!
# Handing entries over between replicas of an ownership table

A new assignment of entries to servers is published to all servers.  Each server
applies it row by row at its own pace, then sends the entries it has lost, one
at a time and each acknowledged before the next, and takes in those it has
gained.  A row is busy from the moment it is applied until the entry has left
the old owner or has arrived at the new one.

A new assignment is published only when every server has settled the last one.
The state says for each entry where it is; the invariant links that to what the
servers have in hand, and mutual exclusion follows.
-/

namespace MeDiE.Verified.Handover

variable {σ ι : Type}

/-- Where an entry is that has changed its owner. -/
inductive Stage
  | unsent
  | wire
  | unpack
  | done
  deriving DecidableEq

/-- A server's work on the entries it has lost. -/
inductive Snd (ι : Type)
  | next (todo : List ι)
  | sent (e : ι) (todo : List ι)
  | cleared (e : ι) (todo : List ι)

/-- A server's work on the entries it has gained; `left` are still to come. -/
inductive Rcv (σ ι : Type)
  | recv (left : Nat)
  | unpack (src : σ) (e : ι) (left : Nat)
  | reply (src : σ) (e : ι) (left : Nat)

/-- How far a server is with the published assignment. -/
inductive Phase (σ ι : Type)
  | settled
  | applying (done : Set ι)
  | moving (snd : Snd ι) (rcv : Rcv σ ι)

/-- A server: its replica of the table, its packet on the wire and whether an
acknowledgement is on its way to it. -/
structure Server (σ ι : Type) where
  phase : Phase σ ι
  own : ι → σ
  busy : ι → Bool
  wire : Option (σ × ι)
  ack : Bool

structure State (σ ι : Type) where
  prev : ι → σ
  cur : ι → σ
  stage : ι → Stage
  srv : σ → Server σ ι

/-- Every server has the first assignment. -/
def init (own : ι → σ) : State σ ι where
  prev := own
  cur := own
  stage := fun _ => .done
  srv := fun _ =>
    { phase := .settled
      own := own
      busy := fun _ => false
      wire := none
      ack := false }

/-! ## What is in a server's hands -/

/-- The row carries the published assignment. -/
@[simp, grind =] def Phase.Applied : Phase σ ι → ι → Prop
  | .settled, _ => True
  | .applying done, e => e ∈ done
  | .moving _ _, _ => True

/-- The entries a sender has not finished with. -/
@[simp, grind =] def Snd.all : Snd ι → List ι
  | .next todo => todo
  | .sent e todo => e :: todo
  | .cleared e todo => e :: todo

/-- The entries a sender has not put on the wire. -/
@[simp, grind =] def Snd.unsent : Snd ι → List ι
  | .next todo => todo
  | .sent _ todo => todo
  | .cleared _ todo => todo

/-- The entries whose row a sender has not freed. -/
@[simp, grind =] def Snd.held : Snd ι → List ι
  | .next todo => todo
  | .sent e todo => e :: todo
  | .cleared _ todo => todo

/-- The entry whose acknowledgement a sender is or will be waiting for. -/
@[simp, grind =] def Snd.awaiting : Snd ι → Option ι
  | .next _ => none
  | .sent e _ => some e
  | .cleared e _ => some e

/-- The entry being unpacked, and where it came from. -/
@[simp, grind =] def Rcv.unpacking : Rcv σ ι → Option (σ × ι)
  | .recv _ => none
  | .unpack src e _ => some (src, e)
  | .reply _ _ _ => none

/-- The entry that is unpacked but not acknowledged. -/
@[simp, grind =] def Rcv.opened : Rcv σ ι → Option (σ × ι)
  | .recv _ => none
  | .unpack _ _ _ => none
  | .reply src e _ => some (src, e)

/-- How many entries have not arrived. -/
@[simp, grind =] def Rcv.left : Rcv σ ι → Nat
  | .recv left => left
  | .unpack _ _ left => left + 1
  | .reply _ _ left => left

/-- A lost entry has not left the server. -/
@[simp, grind =] def Phase.Unsent : Phase σ ι → ι → Prop
  | .settled, _ => False
  | .applying _, _ => True
  | .moving snd _, e => e ∈ snd.unsent

/-- The row of a lost entry is still busy. -/
@[simp, grind =] def Phase.Held : Phase σ ι → ι → Prop
  | .settled, _ => False
  | .applying _, _ => True
  | .moving snd _, e => e ∈ snd.held

@[simp, grind =] def Phase.awaiting : Phase σ ι → Option ι
  | .settled => none
  | .applying _ => none
  | .moving snd _ => snd.awaiting

@[simp, grind =] def Phase.unpacking : Phase σ ι → Option (σ × ι)
  | .settled => none
  | .applying _ => none
  | .moving _ rcv => rcv.unpacking

@[simp, grind =] def Phase.opened : Phase σ ι → Option (σ × ι)
  | .settled => none
  | .applying _ => none
  | .moving _ rcv => rcv.opened

/-- How many of the `gained` entries have not arrived. -/
@[simp, grind =] def Phase.left (gained : Nat) : Phase σ ι → Nat
  | .settled => 0
  | .applying _ => gained
  | .moving _ rcv => rcv.left

/-! ## Steps -/

section Steps

variable [DecidableEq σ] [DecidableEq ι]

/-- Replace one server. -/
def State.set (st : State σ ι) (s : σ) (srv : Server σ ι) : State σ ι :=
  { st with srv := Function.update st.srv s srv }

/-- Move one entry on. -/
def State.mark (st : State σ ι) (e : ι) (stage : Stage) : State σ ι :=
  { st with stage := Function.update st.stage e stage }

/-- Row `e` with the published assignment, on server `s`. -/
def applyRow (prev cur : ι → σ) (s : σ) (srv : Server σ ι) (e : ι) : Server σ ι :=
  if prev e = cur e then srv
  else
    { srv with
      own := Function.update srv.own e (cur e)
      busy := Function.update srv.busy e (decide (s = prev e ∨ s = cur e)) }

/-- The entry is lost by server `s`. -/
@[simp, grind =] def Lost (prev cur : ι → σ) (s : σ) (e : ι) : Prop := prev e = s ∧ cur e ≠ s

variable [Fintype ι]

/-- The number of entries that server `s` gains. -/
def gained (prev cur : ι → σ) (s : σ) : Nat :=
  (Finset.univ.filter (fun e => cur e = s ∧ prev e ≠ s)).card

/-- The number of entries that server `s` gains and has not received. -/
def missing (prev cur : ι → σ) (stage : ι → Stage) (s : σ) : Nat :=
  (Finset.univ.filter
    (fun e => (cur e = s ∧ prev e ≠ s) ∧ stage e ≠ .done)).card

inductive Step : State σ ι → State σ ι → Prop
  | publish {st : State σ ι} (new : ι → σ) (hsettled : ∀ s, (st.srv s).phase = .settled) :
      Step st
        { prev := st.cur
          cur := new
          stage := fun e => if st.cur e = new e then .done else .unsent
          srv := fun s => { st.srv s with phase := .applying ∅ } }
  | apply {st : State σ ι} {s : σ} {done : Set ι} {e : ι}
      (hs : (st.srv s).phase = .applying done) :
      Step st (st.set s
        { applyRow st.prev st.cur s (st.srv s) e with
          phase := .applying (insert e done) })
  | launch {st : State σ ι} {s : σ} {done : Set ι} {todo : List ι} {left : Nat}
      (hs : (st.srv s).phase = .applying done) (hall : ∀ e, e ∈ done)
      (htodo : todo.Nodup) (hmem : ∀ e, e ∈ todo ↔ Lost st.prev st.cur s e)
      (hleft : left = gained st.prev st.cur s) :
      Step st (st.set s
        { st.srv s with phase := .moving (.next todo) (.recv left) })
  | send {st : State σ ι} {s : σ} {e : ι} {todo : List ι} {rcv : Rcv σ ι}
      (hs : (st.srv s).phase = .moving (.next (e :: todo)) rcv) :
      Step st ((st.set s
        { st.srv s with
          phase := .moving (.sent e todo) rcv
          wire := some (st.cur e, e) }).mark e .wire)
  | clear {st : State σ ι} {s : σ} {e : ι} {todo : List ι} {rcv : Rcv σ ι}
      (hs : (st.srv s).phase = .moving (.sent e todo) rcv) :
      Step st (st.set s
        { st.srv s with
          phase := .moving (.cleared e todo) rcv
          busy := Function.update (st.srv s).busy e false })
  | take {st : State σ ι} {w s : σ} {e : ι} {snd : Snd ι} {left : Nat}
      (hw : (st.srv w).phase = .moving snd (.recv (left + 1)))
      (hwire : (st.srv s).wire = some (w, e)) (hne : s ≠ w) :
      Step st (((st.set s { st.srv s with wire := none }).set w
        { st.srv w with phase := .moving snd (.unpack s e left) }).mark e .unpack)
  | open {st : State σ ι} {w s : σ} {e : ι} {snd : Snd ι} {left : Nat}
      (hw : (st.srv w).phase = .moving snd (.unpack s e left)) :
      Step st ((st.set w
        { st.srv w with
          phase := .moving snd (.reply s e left)
          busy := Function.update (st.srv w).busy e false }).mark e .done)
  | reply {st : State σ ι} {w s : σ} {e : ι} {snd : Snd ι} {left : Nat}
      (hw : (st.srv w).phase = .moving snd (.reply s e left)) (hne : s ≠ w) :
      Step st ((st.set s { st.srv s with ack := true }).set w
        { st.srv w with phase := .moving snd (.recv left) })
  | acked {st : State σ ι} {s : σ} {e : ι} {todo : List ι} {rcv : Rcv σ ι}
      (hs : (st.srv s).phase = .moving (.cleared e todo) rcv)
      (hack : (st.srv s).ack = true) :
      Step st (st.set s
        { st.srv s with
          phase := .moving (.next todo) rcv
          ack := false })
  | settle {st : State σ ι} {s : σ}
      (hs : (st.srv s).phase = .moving (.next []) (.recv 0)) :
      Step st (st.set s { st.srv s with phase := .settled })

/-! ## The invariant -/

/-- What server `s` has in hand follows the stage of the entries. -/
structure ServerInv (prev cur : ι → σ) (stage : ι → Stage) (s : σ)
    (srv : Server σ ι) : Prop where
  own : ∀ e, srv.phase.Applied e → srv.own e = cur e
  ownOld : ∀ e, ¬ srv.phase.Applied e → srv.own e = prev e
  busy : ∀ e, srv.busy e = true ↔ srv.phase.Applied e ∧ prev e ≠ cur e ∧
    (s = prev e ∧ srv.phase.Held e ∨ s = cur e ∧ stage e ≠ .done)
  unsent : ∀ e, Lost prev cur s e → (stage e = .unsent ↔ srv.phase.Unsent e)
  lost : ∀ snd rcv, srv.phase = .moving snd rcv →
    snd.all.Nodup ∧ ∀ e ∈ snd.all, Lost prev cur s e
  wire : ∀ d e, srv.wire = some (d, e) ↔
    stage e = .wire ∧ s = prev e ∧ d = cur e
  inHand : ∀ s' e, srv.phase.unpacking = some (s', e) ↔
    stage e = .unpack ∧ s' = prev e ∧ s = cur e
  awaited : ∀ e, s = prev e → stage e = .wire ∨ stage e = .unpack →
    srv.phase.awaiting = some e
  opened : ∀ s' e, srv.phase.opened = some (s', e) →
    s = cur e ∧ s' = prev e ∧ stage e = .done
  ack : srv.ack = true → ∃ e, srv.phase.awaiting = some e ∧ stage e = .done
  left : missing prev cur stage s = srv.phase.left (gained prev cur s)

/-- An entry whose acknowledgement has not been sent yet is still awaited. -/
def OpenedInv (srv : σ → Server σ ι) : Prop :=
  ∀ w s e, (srv w).phase.opened = some (s, e) →
    (srv s).phase.awaiting = some e ∧ (srv s).ack = false

structure Inv (st : State σ ι) : Prop where
  same : ∀ e, st.prev e = st.cur e → st.stage e = .done
  server : ∀ s, ServerInv st.prev st.cur st.stage s (st.srv s)
  opened : OpenedInv st.srv

omit [DecidableEq ι] in
theorem missing_congr {prev cur : ι → σ} {stage stage' : ι → Stage} {s : σ}
    (h : ∀ e, cur e = s → (stage' e = .done ↔ stage e = .done)) :
    missing prev cur stage' s = missing prev cur stage s := by
  apply congrArg Finset.card
  ext e
  simp only [Finset.mem_filter_univ]
  constructor
  · rintro ⟨⟨hcur, hprev⟩, hstage⟩
    exact ⟨⟨hcur, hprev⟩, fun hdone => hstage ((h e hcur).mpr hdone)⟩
  · rintro ⟨⟨hcur, hprev⟩, hstage⟩
    exact ⟨⟨hcur, hprev⟩, fun hdone => hstage ((h e hcur).mp hdone)⟩

/-- One entry less is missing when it arrives. -/
theorem missing_done {prev cur : ι → σ} {stage : ι → Stage} {s : σ} {e : ι}
    (hcur : cur e = s) (hprev : prev e ≠ s) (hstage : stage e ≠ .done) :
    missing prev cur stage s =
      missing prev cur (Function.update stage e .done) s + 1 := by
  rw [missing, missing]
  have herase : (Finset.univ.filter (fun i =>
      (cur i = s ∧ prev i ≠ s) ∧ Function.update stage e .done i ≠ .done)) =
      (Finset.univ.filter
        (fun i => (cur i = s ∧ prev i ≠ s) ∧ stage i ≠ .done)).erase e := by
    ext i
    by_cases hi : i = e
    · simp [hi]
    · simp [hi]
  rw [herase, Finset.card_erase_add_one]
  simp [hcur, hprev, hstage]

omit [DecidableEq ι] in
theorem missing_eq_zero {prev cur : ι → σ} {stage : ι → Stage} {s : σ} :
    missing prev cur stage s = 0 ↔
      ∀ e, cur e = s → prev e ≠ s → stage e = .done := by
  simp only [missing, Finset.card_eq_zero, Finset.filter_eq_empty_iff,
    Finset.mem_univ, true_implies, not_and, not_not, and_imp]

omit [DecidableEq ι] in
theorem missing_eq_gained {prev cur : ι → σ} {stage : ι → Stage} {s : σ} :
    missing prev cur stage s = gained prev cur s ↔
      ∀ e, cur e = s → prev e ≠ s → stage e ≠ .done := by
  rw [missing, gained, ← Finset.filter_filter, Finset.card_filter_eq_iff]
  simp

/-! ## What a step does to one server -/

section Server

variable {prev cur : ι → σ} {stage : ι → Stage} {s : σ} {srv : Server σ ι}

omit [DecidableEq ι] in
theorem ServerInv.lost_of_awaiting (inv : ServerInv prev cur stage s srv) {e : ι}
    (he : srv.phase.awaiting = some e) : Lost prev cur s e := by
  cases hphase : srv.phase with
  | settled => simp [hphase] at he
  | applying done => simp [hphase] at he
  | moving snd rcv =>
      apply (inv.lost snd rcv hphase).2
      rw [hphase, Phase.awaiting] at he
      cases snd with
      | next todo => cases he
      | sent e' todo => simp_all
      | cleared e' todo => simp_all

omit [DecidableEq ι] in
/-- A server depends on the stage of the entries it loses, and of those it gains
on whether they are being unpacked or done. -/
theorem ServerInv.frame (inv : ServerInv prev cur stage s srv) {stage' : ι → Stage}
    (hlost : ∀ e, prev e = s → stage' e = stage e)
    (hunpack : ∀ e, cur e = s → (stage' e = .unpack ↔ stage e = .unpack))
    (hdone : ∀ e, cur e = s → (stage' e = .done ↔ stage e = .done)) :
    ServerInv prev cur stage' s srv := by
  have hmissing : missing prev cur stage' s = missing prev cur stage s :=
    missing_congr hdone
  have hawaiting : ∀ e, srv.phase.awaiting = some e → stage' e = stage e :=
    fun e he => hlost e (inv.lost_of_awaiting he).1
  obtain ⟨own, ownOld, busy, unsent, lost, wire, inHand, awaited, opened, ack,
    left⟩ := inv
  exact
    { own := own
      ownOld := ownOld
      busy := by grind
      unsent := by grind
      lost := lost
      wire := by grind
      inHand := by grind
      awaited := by grind
      opened := by grind
      ack := by grind
      left := by grind }

/-- A server that neither loses nor gains the entry that is moved on. -/
theorem ServerInv.other (inv : ServerInv prev cur stage s srv) {e : ι} {stage' : Stage}
    (hprev : prev e ≠ s) (hcur : cur e ≠ s) :
    ServerInv prev cur (Function.update stage e stage') s srv := by
  apply inv.frame
  · intro i hi
    have hne : i ≠ e := fun heq => hprev (heq ▸ hi)
    rw [Function.update_of_ne hne]
  · intro i hi
    have hne : i ≠ e := fun heq => hcur (heq ▸ hi)
    rw [Function.update_of_ne hne]
  · intro i hi
    have hne : i ≠ e := fun heq => hcur (heq ▸ hi)
    rw [Function.update_of_ne hne]

theorem ServerInv.apply (inv : ServerInv prev cur stage s srv) {e : ι} {done : Set ι}
    (hs : srv.phase = .applying done) :
    ServerInv prev cur stage s
      { applyRow prev cur s srv e with phase := .applying (insert e done) } := by
  have hfresh : ∀ e, cur e = s → prev e ≠ s → stage e ≠ .done :=
    missing_eq_gained.mp (by rw [inv.left, hs, Phase.left])
  obtain ⟨own, ownOld, busy, unsent, lost, wire, inHand, awaited, opened, ack,
    left⟩ := inv
  rw [hs] at own ownOld busy unsent lost inHand awaited opened ack left
  unfold applyRow
  by_cases he : prev e = cur e
  · rw [if_pos he]
    exact
      { own := by grind
        ownOld := by grind
        busy := by grind
        unsent := unsent
        lost := by grind
        wire := wire
        inHand := inHand
        awaited := awaited
        opened := opened
        ack := ack
        left := left }
  · rw [if_neg he]
    exact
      { own := by grind
        ownOld := by grind
        busy := by grind
        unsent := unsent
        lost := by grind
        wire := wire
        inHand := inHand
        awaited := awaited
        opened := opened
        ack := ack
        left := left }

omit [DecidableEq ι] in
theorem ServerInv.launch (inv : ServerInv prev cur stage s srv) {done : Set ι}
    {todo : List ι} (hs : srv.phase = .applying done) (hall : ∀ e, e ∈ done)
    (htodo : todo.Nodup) (hmem : ∀ e, e ∈ todo ↔ Lost prev cur s e) :
    ServerInv prev cur stage s
      { srv with phase := .moving (.next todo) (.recv (gained prev cur s)) } := by
  obtain ⟨own, ownOld, busy, unsent, lost, wire, inHand, awaited, opened, ack,
    left⟩ := inv
  rw [hs] at own ownOld busy unsent lost inHand awaited opened ack left
  exact
    { own := by grind
      ownOld := by grind
      busy := by grind
      unsent := by grind
      lost := by grind
      wire := wire
      inHand := inHand
      awaited := awaited
      opened := opened
      ack := ack
      left := left }

theorem ServerInv.send (inv : ServerInv prev cur stage s srv) {e : ι} {todo : List ι}
    {rcv : Rcv σ ι} (hs : srv.phase = .moving (.next (e :: todo)) rcv) :
    ServerInv prev cur (Function.update stage e .wire) s
      { srv with
        phase := .moving (.sent e todo) rcv
        wire := some (cur e, e) } := by
  obtain ⟨own, ownOld, busy, unsent, lost, wire, inHand, awaited, opened, ack,
    left⟩ := inv
  rw [hs] at own ownOld busy unsent lost inHand awaited opened ack left
  obtain ⟨hnodup, hlost⟩ := lost _ _ rfl
  have he : Lost prev cur s e := hlost e (by simp)
  have hstage : stage e = .unsent := by simp [unsent e he]
  have hmissing : missing prev cur (Function.update stage e .wire) s =
      missing prev cur stage s := by
    apply missing_congr
    intro i hi
    have hne : i ≠ e := fun heq => he.2 (heq ▸ hi)
    simp [hne]
  -- nothing else of this server is on its way
  have hfree : ∀ i, prev i = s → stage i ≠ .wire ∧ stage i ≠ .unpack := by
    intro i hi
    have h := awaited i hi.symm
    grind
  constructor <;> grind

theorem ServerInv.clear (inv : ServerInv prev cur stage s srv) {e : ι} {todo : List ι}
    {rcv : Rcv σ ι} (hs : srv.phase = .moving (.sent e todo) rcv) :
    ServerInv prev cur stage s
      { srv with
        phase := .moving (.cleared e todo) rcv
        busy := Function.update srv.busy e false } := by
  obtain ⟨own, ownOld, busy, unsent, lost, wire, inHand, awaited, opened, ack,
    left⟩ := inv
  rw [hs] at own ownOld busy unsent lost inHand awaited opened ack left
  have hnodup : (e :: todo).Nodup := (lost _ _ rfl).1
  have he : Lost prev cur s e := (lost _ _ rfl).2 e (by simp)
  exact
    { own := own
      ownOld := ownOld
      busy := by grind
      unsent := unsent
      lost := by grind
      wire := wire
      inHand := inHand
      awaited := awaited
      opened := opened
      ack := ack
      left := left }

/-- The old owner when its packet is taken. -/
theorem ServerInv.taken (inv : ServerInv prev cur stage s srv) {w : σ} {e : ι}
    (hwire : srv.wire = some (w, e)) (hne : s ≠ w) :
    ServerInv prev cur (Function.update stage e .unpack) s
      { srv with wire := none } := by
  obtain ⟨own, ownOld, busy, unsent, lost, wire, inHand, awaited, opened, ack,
    left⟩ := inv
  have hstage : stage e = .wire ∧ s = prev e ∧ w = cur e := (wire w e).mp hwire
  have hmissing : missing prev cur (Function.update stage e .unpack) s =
      missing prev cur stage s := by
    apply missing_congr
    intro i hi
    have hne' : i ≠ e := fun heq => hne (by rw [hstage.2.2, ← heq, hi])
    simp [hne']
  exact
    { own := own
      ownOld := ownOld
      busy := by grind
      unsent := by grind
      lost := lost
      wire := by grind
      inHand := by grind
      awaited := by grind
      opened := by grind
      ack := by grind
      left := by grind }

theorem ServerInv.take (inv : ServerInv prev cur stage s srv) {src : σ} {e : ι}
    {snd : Snd ι} {left : Nat} (hs : srv.phase = .moving snd (.recv (left + 1)))
    (hstage : stage e = .wire) (hsrc : src = prev e) (hcur : s = cur e)
    (hne : src ≠ s) :
    ServerInv prev cur (Function.update stage e .unpack) s
      { srv with phase := .moving snd (.unpack src e left) } := by
  obtain ⟨own, ownOld, busy, unsent, lost, wire, inHand, awaited, opened, ack,
    left⟩ := inv
  rw [hs] at own ownOld busy unsent lost inHand awaited opened ack left
  have hmissing : missing prev cur (Function.update stage e .unpack) s =
      missing prev cur stage s := by
    apply missing_congr
    intro i hi
    by_cases hie : i = e
    · simp [hie, hstage]
    · simp [hie]
  constructor <;> grind

theorem ServerInv.open (inv : ServerInv prev cur stage s srv)
    (same : ∀ e, prev e = cur e → stage e = .done) {src : σ} {e : ι}
    {snd : Snd ι} {left : Nat} (hs : srv.phase = .moving snd (.unpack src e left)) :
    ServerInv prev cur (Function.update stage e .done) s
      { srv with
        phase := .moving snd (.reply src e left)
        busy := Function.update srv.busy e false } := by
  obtain ⟨own, ownOld, busy, unsent, lost, wire, inHand, awaited, opened, ack,
    left⟩ := inv
  rw [hs] at own ownOld busy unsent lost inHand awaited opened ack left
  have hstage : stage e = .unpack ∧ src = prev e ∧ s = cur e :=
    (inHand src e).mp rfl
  have hne : prev e ≠ cur e := by
    intro heq
    have h := same e heq
    simp [hstage.1] at h
  have hmissing : missing prev cur stage s =
      missing prev cur (Function.update stage e .done) s + 1 := by
    apply missing_done hstage.2.2.symm
    · rwa [hstage.2.2]
    · simp [hstage.1]
  constructor <;> grind

/-- The old owner when its entry is unpacked. -/
theorem ServerInv.arrived (inv : ServerInv prev cur stage s srv) {e : ι}
    (hstage : stage e = .unpack) (hcur : cur e ≠ s) :
    ServerInv prev cur (Function.update stage e .done) s srv := by
  obtain ⟨own, ownOld, busy, unsent, lost, wire, inHand, awaited, opened, ack,
    left⟩ := inv
  have hmissing : missing prev cur (Function.update stage e .done) s =
      missing prev cur stage s := by
    apply missing_congr
    intro i hi
    have hne : i ≠ e := fun heq => hcur (heq ▸ hi)
    simp [hne]
  exact
    { own := own
      ownOld := ownOld
      busy := by grind
      unsent := by grind
      lost := lost
      wire := by grind
      inHand := by grind
      awaited := by grind
      opened := by grind
      ack := by grind
      left := by grind }

omit [DecidableEq ι] in
theorem ServerInv.reply (inv : ServerInv prev cur stage s srv) {src : σ} {e : ι}
    {snd : Snd ι} {left : Nat} (hs : srv.phase = .moving snd (.reply src e left)) :
    ServerInv prev cur stage s { srv with phase := .moving snd (.recv left) } := by
  obtain ⟨own, ownOld, busy, unsent, lost, wire, inHand, awaited, opened, ack,
    left⟩ := inv
  rw [hs] at own ownOld busy unsent lost inHand awaited opened ack left
  exact
    { own := own
      ownOld := ownOld
      busy := busy
      unsent := unsent
      lost := by grind
      wire := wire
      inHand := inHand
      awaited := awaited
      opened := by grind
      ack := ack
      left := left }

omit [DecidableEq ι] in
/-- The old owner when it is sent an acknowledgement. -/
theorem ServerInv.replied (inv : ServerInv prev cur stage s srv) {e : ι}
    (he : srv.phase.awaiting = some e) (hstage : stage e = .done) :
    ServerInv prev cur stage s { srv with ack := true } := by
  obtain ⟨own, ownOld, busy, unsent, lost, wire, inHand, awaited, opened, ack,
    left⟩ := inv
  exact
    { own := own
      ownOld := ownOld
      busy := busy
      unsent := unsent
      lost := lost
      wire := wire
      inHand := inHand
      awaited := awaited
      opened := opened
      ack := by grind
      left := left }

omit [DecidableEq ι] in
theorem ServerInv.acked (inv : ServerInv prev cur stage s srv) {e : ι} {todo : List ι}
    {rcv : Rcv σ ι} (hs : srv.phase = .moving (.cleared e todo) rcv)
    (hack : srv.ack = true) :
    ServerInv prev cur stage s
      { srv with
        phase := .moving (.next todo) rcv
        ack := false } := by
  obtain ⟨own, ownOld, busy, unsent, lost, wire, inHand, awaited, opened, ack,
    left⟩ := inv
  rw [hs] at own ownOld busy unsent lost inHand awaited opened ack left
  have hstage : stage e = .done := by simpa using ack hack
  exact
    { own := own
      ownOld := ownOld
      busy := busy
      unsent := unsent
      lost := by grind
      wire := wire
      inHand := inHand
      awaited := by grind
      opened := opened
      ack := by grind
      left := left }

omit [DecidableEq ι] in
theorem ServerInv.settle (inv : ServerInv prev cur stage s srv)
    (hs : srv.phase = .moving (.next []) (.recv 0)) :
    ServerInv prev cur stage s { srv with phase := .settled } := by
  obtain ⟨own, ownOld, busy, unsent, lost, wire, inHand, awaited, opened, ack,
    left⟩ := inv
  rw [hs] at own ownOld busy unsent lost inHand awaited opened ack left
  exact
    { own := own
      ownOld := ownOld
      busy := by grind
      unsent := by grind
      lost := by grind
      wire := wire
      inHand := inHand
      awaited := awaited
      opened := opened
      ack := ack
      left := left }

end Server

/-! ## The invariant holds along runs -/

omit [DecidableEq ι] [Fintype ι] in
@[simp] theorem set_srv (st : State σ ι) (s : σ) (srv : Server σ ι) :
    (st.set s srv).srv = Function.update st.srv s srv := rfl

omit [DecidableEq σ] [Fintype ι] in
@[simp] theorem mark_stage (st : State σ ι) (e : ι) (stage : Stage) :
    (st.mark e stage).stage = Function.update st.stage e stage := rfl

omit [DecidableEq ι] [Fintype ι] in
/-- A server goes on waiting and opens nothing. -/
theorem OpenedInv.update {srv : σ → Server σ ι} (inv : OpenedInv srv) {s : σ}
    {srv' : Server σ ι}
    (hawaiting : ∀ e, (srv s).phase.awaiting = some e → (srv s).ack = false →
      srv'.phase.awaiting = some e ∧ srv'.ack = false)
    (hopened : ∀ p, srv'.phase.opened = some p → (srv s).phase.opened = some p) :
    OpenedInv (Function.update srv s srv') := by
  intro w s' e h
  have hold : (srv w).phase.opened = some (s', e) := by
    by_cases hw : w = s
    · subst hw
      rw [Function.update_self] at h
      exact hopened _ h
    · rwa [Function.update_of_ne hw] at h
  have hs' := inv w s' e hold
  by_cases hws : s' = s
  · subst hws
    rw [Function.update_self]
    exact hawaiting e hs'.1 hs'.2
  · rwa [Function.update_of_ne hws]

omit [DecidableEq ι] in
/-- A step that changes one server and no stage. -/
theorem Inv.set {st : State σ ι} (inv : Inv st) {s : σ} {srv : Server σ ι}
    (hsrv : ServerInv st.prev st.cur st.stage s srv)
    (hopened : OpenedInv (Function.update st.srv s srv)) :
    Inv (st.set s srv) := by
  constructor
  · exact inv.same
  · intro w
    rw [set_srv]
    by_cases hw : w = s
    · subst hw
      rwa [Function.update_self]
    · rw [Function.update_of_ne hw]
      exact inv.server w
  · exact hopened

/-- Moving on an entry that has changed its owner. -/
theorem Inv.same_update {st : State σ ι} (inv : Inv st) {e : ι} (stage : Stage)
    (hne : st.prev e ≠ st.cur e) (i : ι) (hi : st.prev i = st.cur i) :
    Function.update st.stage e stage i = .done := by
  have hie : i ≠ e := fun heq => hne (heq ▸ hi)
  rw [Function.update_of_ne hie]
  exact inv.same i hi

omit [DecidableEq ι] in
theorem Inv.all_done {st : State σ ι} (inv : Inv st)
    (hsettled : ∀ s, (st.srv s).phase = .settled) (e : ι) : st.stage e = .done := by
  by_cases he : st.prev e = st.cur e
  · exact inv.same e he
  · have hleft := (inv.server (st.cur e)).left
    rw [hsettled, Phase.left, missing_eq_zero] at hleft
    exact hleft e rfl he

omit [DecidableEq ι] in
theorem Inv.publish {st : State σ ι} (inv : Inv st) (new : ι → σ)
    (hsettled : ∀ s, (st.srv s).phase = .settled) :
    Inv { prev := st.cur
          cur := new
          stage := fun e => if st.cur e = new e then .done else .unsent
          srv := fun s => { st.srv s with phase := .applying ∅ } } := by
  have hdone := inv.all_done hsettled
  constructor
  · intro e he
    exact if_pos he
  · intro s
    have hs := inv.server s
    have hnew : missing st.cur new
        (fun e => if st.cur e = new e then .done else .unsent) s =
        gained st.cur new s := by
      rw [missing_eq_gained]
      intro e hcur hprev
      have hne : st.cur e ≠ new e := hcur ▸ hprev
      simp [hne]
    obtain ⟨own, ownOld, busy, unsent, lost, wire, inHand, awaited, opened, ack,
      left⟩ := hs
    rw [hsettled] at own ownOld busy unsent lost inHand awaited opened ack left
    constructor <;> grind
  · intro w s e h
    cases h

theorem Inv.send {st : State σ ι} (inv : Inv st) {s : σ} {e : ι} {todo : List ι}
    {rcv : Rcv σ ι} (hs : (st.srv s).phase = .moving (.next (e :: todo)) rcv) :
    Inv ((st.set s
      { st.srv s with
        phase := .moving (.sent e todo) rcv
        wire := some (st.cur e, e) }).mark e .wire) := by
  have he : Lost st.prev st.cur s e := ((inv.server s).lost _ _ hs).2 e (by simp)
  have hstage : st.stage e = .unsent := by
    rw [(inv.server s).unsent e he, hs]
    simp
  constructor
  · apply inv.same_update
    rw [he.1]
    exact he.2.symm
  · intro w
    rw [mark_stage]
    show ServerInv st.prev st.cur _ w (Function.update st.srv s _ w)
    by_cases hw : w = s
    · subst hw
      rw [Function.update_self]
      exact (inv.server w).send hs
    · rw [Function.update_of_ne hw]
      apply (inv.server w).frame
      · intro i hi
        have hie : i ≠ e := fun heq => hw (by rw [← hi, heq, he.1])
        exact Function.update_of_ne hie _ _
      all_goals
        intro i _
        rw [State.set]
        by_cases hi : i = e
        · simp [hi, hstage]
        · simp [hi]
  · apply inv.opened.update
    · simp [hs]
    · simp [hs]

theorem Inv.take {st : State σ ι} (inv : Inv st) {w s : σ} {e : ι} {snd : Snd ι}
    {left : Nat} (hw : (st.srv w).phase = .moving snd (.recv (left + 1)))
    (hwire : (st.srv s).wire = some (w, e)) (hne : s ≠ w) :
    Inv (((st.set s { st.srv s with wire := none }).set w
      { st.srv w with phase := .moving snd (.unpack s e left) }).mark e .unpack) := by
  have hstage : st.stage e = .wire ∧ s = st.prev e ∧ w = st.cur e :=
    ((inv.server s).wire w e).mp hwire
  constructor
  · apply inv.same_update
    rw [← hstage.2.1, ← hstage.2.2]
    exact hne
  · intro i
    rw [mark_stage]
    show ServerInv st.prev st.cur _ i
      (Function.update (Function.update st.srv s _) w _ i)
    by_cases hiw : i = w
    · subst hiw
      rw [Function.update_self]
      exact (inv.server i).take hw hstage.1 hstage.2.1 hstage.2.2 hne
    · rw [Function.update_of_ne hiw]
      by_cases his : i = s
      · subst his
        rw [Function.update_self]
        exact (inv.server i).taken hwire hne
      · rw [Function.update_of_ne his]
        apply (inv.server i).other
        · exact fun heq => his (by rw [hstage.2.1, heq])
        · exact fun heq => hiw (by rw [hstage.2.2, heq])
  · have htaken : OpenedInv
        (Function.update st.srv s { st.srv s with wire := none }) := by
      apply inv.opened.update
      · exact fun e h hack => ⟨h, hack⟩
      · exact fun p h => h
    apply htaken.update
    · rw [Function.update_of_ne hne.symm, hw]
      exact fun e h hack => ⟨h, hack⟩
    · simp

theorem Inv.open {st : State σ ι} (inv : Inv st) {w s : σ} {e : ι} {snd : Snd ι}
    {left : Nat} (hw : (st.srv w).phase = .moving snd (.unpack s e left)) :
    Inv ((st.set w
      { st.srv w with
        phase := .moving snd (.reply s e left)
        busy := Function.update (st.srv w).busy e false }).mark e .done) := by
  have hstage : st.stage e = .unpack ∧ s = st.prev e ∧ w = st.cur e :=
    ((inv.server w).inHand s e).mp (by simp [hw])
  have hawaiting : (st.srv s).phase.awaiting = some e := by
    rw [hstage.2.1]
    exact (inv.server _).awaited e rfl (Or.inr hstage.1)
  have hchanged : st.prev e ≠ st.cur e := by
    intro heq
    have h := inv.same e heq
    simp [hstage.1] at h
  have hne : s ≠ w := by
    rw [hstage.2.1, hstage.2.2]
    exact hchanged
  have hack : (st.srv s).ack = false := by
    rw [Bool.eq_false_iff]
    intro htrue
    obtain ⟨i, hi, hdone⟩ := (inv.server s).ack htrue
    rw [hawaiting, Option.some.injEq] at hi
    rw [← hi, hstage.1] at hdone
    cases hdone
  constructor
  · exact inv.same_update .done hchanged
  · intro i
    rw [mark_stage]
    show ServerInv st.prev st.cur _ i (Function.update st.srv w _ i)
    by_cases hiw : i = w
    · subst hiw
      rw [Function.update_self]
      exact (inv.server i).open inv.same hw
    · rw [Function.update_of_ne hiw]
      apply (inv.server i).arrived hstage.1
      exact fun heq => hiw (by rw [hstage.2.2, heq])
  · intro i s' e' h
    show (Function.update st.srv w _ s').phase.awaiting = some e' ∧ _
    change (Function.update st.srv w _ i).phase.opened = some (s', e') at h
    by_cases hiw : i = w
    · subst hiw
      rw [Function.update_self] at h
      have hp : s = s' ∧ e = e' := by simpa using h
      rw [← hp.1, ← hp.2]
      show _ ∧ (Function.update st.srv i _ s).ack = false
      rw [Function.update_of_ne hne]
      exact ⟨hawaiting, hack⟩
    · rw [Function.update_of_ne hiw] at h
      have hs' := inv.opened i s' e' h
      by_cases hsw : s' = w
      · subst hsw
        show _ ∧ (Function.update st.srv s' _ s').ack = false
        rw [Function.update_self]
        rwa [hw] at hs'
      · show _ ∧ (Function.update st.srv w _ s').ack = false
        rwa [Function.update_of_ne hsw]

omit [DecidableEq ι] in
theorem Inv.reply {st : State σ ι} (inv : Inv st) {w s : σ} {e : ι} {snd : Snd ι}
    {left : Nat} (hw : (st.srv w).phase = .moving snd (.reply s e left)) (hne : s ≠ w) :
    Inv ((st.set s { st.srv s with ack := true }).set w
      { st.srv w with phase := .moving snd (.recv left) }) := by
  have hopened : (st.srv w).phase.opened = some (s, e) := by simp [hw]
  have hstage := (inv.server w).opened s e hopened
  have hawaiting := (inv.opened w s e hopened).1
  constructor
  · exact inv.same
  · intro i
    show ServerInv st.prev st.cur st.stage i
      (Function.update (Function.update st.srv s _) w _ i)
    by_cases hiw : i = w
    · subst hiw
      rw [Function.update_self]
      exact (inv.server i).reply hw
    · rw [Function.update_of_ne hiw]
      by_cases his : i = s
      · subst his
        rw [Function.update_self]
        exact (inv.server i).replied hawaiting hstage.2.2
      · rw [Function.update_of_ne his]
        exact inv.server i
  · intro i s' e' h
    show (Function.update (Function.update st.srv s _) w _ s').phase.awaiting =
      some e' ∧ (Function.update (Function.update st.srv s _) w _ s').ack = false
    change (Function.update (Function.update st.srv s _) w _ i).phase.opened =
      some (s', e') at h
    have hiw : i ≠ w := by
      intro heq
      rw [heq, Function.update_self] at h
      cases h
    have hold : (st.srv i).phase.opened = some (s', e') := by
      rw [Function.update_of_ne hiw] at h
      by_cases his : i = s
      · subst his
        rwa [Function.update_self] at h
      · rwa [Function.update_of_ne his] at h
    have hs' := inv.opened i s' e' hold
    -- only `w` has an entry of `s`, the one that `s` waits for
    have hss : s' ≠ s := by
      intro heq
      rw [heq, hawaiting, Option.some.injEq] at hs'
      have hi := ((inv.server i).opened s' e' hold).1
      rw [← hs'.1, ← hstage.1] at hi
      exact hiw hi
    by_cases hsw : s' = w
    · subst hsw
      rw [Function.update_self]
      rwa [hw] at hs'
    · rwa [Function.update_of_ne hsw, Function.update_of_ne hss]

theorem Inv.step {st st' : State σ ι} (inv : Inv st) (h : Step st st') : Inv st' := by
  cases h with
  | publish new hsettled => exact inv.publish new hsettled
  | apply hs =>
      apply inv.set ((inv.server _).apply hs)
      apply inv.opened.update
      · simp [hs]
      · simp
  | launch hs hall htodo hmem hleft =>
      subst hleft
      apply inv.set ((inv.server _).launch hs hall htodo hmem)
      apply inv.opened.update
      · simp [hs]
      · simp
  | send hs => exact inv.send hs
  | clear hs =>
      apply inv.set ((inv.server _).clear hs)
      apply inv.opened.update
      · simp [hs]
      · simp [hs]
  | take hw hwire hne => exact inv.take hw hwire hne
  | «open» hw => exact inv.open hw
  | reply hw hne => exact inv.reply hw hne
  | acked hs hack =>
      apply inv.set ((inv.server _).acked hs hack)
      apply inv.opened.update
      · simp [hack]
      · simp [hs]
  | settle hs =>
      apply inv.set ((inv.server _).settle hs)
      apply inv.opened.update
      · simp [hs]
      · simp

omit [DecidableEq ι] in
theorem inv_init (own : ι → σ) : Inv (init own) := by
  constructor
  · exact fun _ _ => rfl
  · intro s
    have hmissing : missing own own (fun _ => Stage.done) s = 0 := by
      simp [missing]
    constructor <;> simp_all [init]
  · intro w s e h
    cases h

/-- The invariant holds along every run. -/
theorem inv_of_reach {own : ι → σ} {st : State σ ι}
    (h : Transition.Reach (init own) Step st) : Inv st :=
  h.invariant (inv_init own) fun _ _ _ inv hstep => inv.step hstep

/-! ## What follows -/

/-- Server `s` regards itself as the owner of the entry and may use it. -/
def Active (st : State σ ι) (s : σ) (e : ι) : Prop :=
  (st.srv s).own e = s ∧ (st.srv s).busy e = false

omit [DecidableEq ι] in
theorem Inv.active_iff {st : State σ ι} (inv : Inv st) (s : σ) (e : ι) :
    Active st s e ↔
      (¬ (st.srv s).phase.Applied e ∧ s = st.prev e) ∨
        ((st.srv s).phase.Applied e ∧ s = st.cur e ∧ st.stage e = .done) := by
  have hs := inv.server s
  have hbusy := hs.busy e
  rw [Active, ← Bool.not_eq_true]
  by_cases happlied : (st.srv s).phase.Applied e
  · rw [hs.own e happlied]
    have hsame := inv.same e
    grind
  · rw [hs.ownOld e happlied]
    grind

omit [DecidableEq ι] in
/-- At most one server is active for an entry. -/
theorem Inv.active_unique {st : State σ ι} (inv : Inv st) {s s' : σ} {e : ι}
    (h : Active st s e) (h' : Active st s' e) : s = s' := by
  -- the old owner has not applied the row, so the entry is still there
  have hold : ∀ {w}, ¬ (st.srv w).phase.Applied e → w = st.prev e →
      st.stage e = .done → st.prev e = st.cur e := by
    intro w happlied hw hdone
    by_contra hne
    subst hw
    have hunsent := inv.server (st.prev e) |>.unsent e ⟨rfl, Ne.symm hne⟩
    cases hphase : (st.srv (st.prev e)).phase with
    | settled => simp [hphase] at happlied
    | applying done => simp [hphase, hdone] at hunsent
    | moving snd rcv => simp [hphase] at happlied
  rw [inv.active_iff] at h h'
  rcases h with ⟨hn, hs⟩ | ⟨_, hs, hdone⟩ <;>
    rcases h' with ⟨hn', hs'⟩ | ⟨_, hs', hdone'⟩
  · rw [hs, hs']
  · rw [hs, hs', hold hn hs hdone']
  · rw [hs, hs', hold hn' hs' hdone]
  · rw [hs, hs']

omit [DecidableEq ι] in
/-- When the assignment is settled, its owners are active. -/
theorem Inv.active_of_settled {st : State σ ι} (inv : Inv st)
    (hsettled : ∀ s, (st.srv s).phase = .settled) (s : σ) (e : ι) :
    Active st s e ↔ s = st.cur e := by
  rw [inv.active_iff, hsettled]
  simp [inv.all_done hsettled e]

omit [DecidableEq ι] in
/-- When the assignment is settled, nothing is on its way. -/
theorem Inv.quiet_of_settled {st : State σ ι} (inv : Inv st)
    (hsettled : ∀ s, (st.srv s).phase = .settled) (s : σ) :
    (st.srv s).wire = none ∧ (st.srv s).ack = false := by
  constructor
  · cases hwire : (st.srv s).wire with
    | none => rfl
    | some p =>
        have hstage := ((inv.server s).wire p.1 p.2).mp hwire
        have hdone := inv.all_done hsettled p.2
        rw [hstage.1] at hdone
        cases hdone
  · rw [Bool.eq_false_iff]
    intro hack
    obtain ⟨e, he, _⟩ := (inv.server s).ack hack
    rw [hsettled] at he
    cases he

end Steps

end MeDiE.Verified.Handover
