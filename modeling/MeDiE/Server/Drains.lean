import MeDiE.Server.SpotMoves
import MeDiE.System.Transfers

/-!
# A sender that finds no request in its way

A sender that looks at a list of names does not see a request that is between its
steps: a key that has its file but not its name yet stays behind, and a name whose file
is gone stops the thread.  Where a sender looks at a list only when no create and no
delete between its steps is in its way, it leaves nothing behind.
-/

namespace MeDiE.Server

open MeDiE.Storage

variable {n nb : Nat} {A C : Type}

theorem Main.Changing.mono {main main' : Main n C} {e : Fin n} (h : main'.Changing e)
    (hmain : ∀ request ∈ main'.change, request ∈ main.change) : main.Changing e := by
  obtain ⟨request, hmem, he⟩ := h
  exact ⟨request, hmain request hmem, he⟩

/-- What a sender has looked at is complete. -/
structure State.Drained (srv : State n nb A C) : Prop where
  sender : ∀ request ∈ srv.main.change, srv.listener.draining = some request.index →
    request.key ∉ srv.listener.packed ∧ srv.listener.popped ≠ some request.key
  sent : ∀ server toSend packet receiver,
    srv.listener = .transfer (.send server toSend packet) receiver →
      srv.inChargeMd packet.entry = [] ∧ ¬ srv.main.Changing packet.entry
  wire : ∀ p, srv.wire = some p → srv.inChargeMd p.2.entry = []

/-- The sender, the lists and the wire are the same, and no other request is between its
steps. -/
theorem State.Drained.congr {srv srv' : State n nb A C} (drained : srv.Drained)
    (hlisted : srv'.inChargeMd = srv.inChargeMd) (hwire : srv'.wire = srv.wire)
    (hmain : ∀ request ∈ srv'.main.change, request ∈ srv.main.change)
    (hsender : ∀ sender receiver, srv'.listener = .transfer sender receiver →
      sender.draining = none ∨ ∃ receiver', srv.listener = .transfer sender receiver') :
    srv'.Drained where
  sender := by
    intro request hmem he
    cases hl' : srv'.listener with
    | transfer sender receiver =>
        rw [hl'] at he
        rcases hsender sender receiver hl' with hnone | ⟨receiver', hl⟩
        · rw [Listener.draining, hnone] at he
          cases he
        · have hold := drained.sender request (hmain request hmem) (by rw [hl]; exact he)
          rwa [hl] at hold
    | _ =>
        rw [hl'] at he
        cases he
  sent := by
    intro server toSend packet receiver hl'
    rcases hsender _ receiver hl' with hnone | ⟨receiver', hl⟩
    · cases hnone
    · rw [hlisted]
      obtain ⟨hnil, hnot⟩ := drained.sent server toSend packet receiver' hl
      exact ⟨hnil, fun hchanging => hnot (hchanging.mono hmain)⟩
  wire := by
    intro p hp
    rw [hwire] at hp
    rw [hlisted]
    exact drained.wire p hp

/-- A server by itself takes no request. -/
theorem Step.change [Eacl A n] {s : Fin nb} {srv srv' : State n nb A C} {l : Label}
    (h : Step s srv l srv') : ∀ request ∈ srv'.main.change, request ∈ srv.main.change := by
  intro request hmem
  cases h with
  | incrAccess client request' hmain =>
      rw [hmain]
      exact hmem
  | storage client request' store done getValue hmain hstore =>
      rw [hmain]
      obtain ⟨hrequest, hchange, _⟩ := Main.mem_change.mp hmem
      exact Main.mem_change.mpr ⟨hrequest, hchange, rfl⟩
  | crash => cases (Main.mem_change.mp hmem).1
  | _ => exact hmem

theorem Step.drained [Eacl A n] {s : Fin nb} {srv srv' : State n nb A C} {l : Label}
    (drained : srv.Drained) (apart : srv.Apart)
    (hunwired : ∀ p, srv.wire = some p → srv.listener.unpacking ≠ some p.2.entry)
    (halone : LooksAlone srv l) (h : Step s srv l srv') : srv'.Drained := by
  have hchange := h.change
  have hsender := drained.sender
  cases h with
  | sendNext server entry toSend receiver hl =>
      constructor
      · intro request hmem he
        simp [strtok_start]
      · intro server' toSend' packet receiver' hl'
        cases hl'
      · exact drained.wire
  | drainEnd server toSend packet receiver hl hnil =>
      have hclear : srv.Clear packet.entry := by simpa only [LooksAlone, hl] using halone
      rw [State.Clear, hnil] at hclear
      rw [hl] at hsender
      constructor
      · exact hsender
      · intro server' toSend' packet' receiver' hl'
        cases hl'
        exact ⟨hnil, hclear⟩
      · exact drained.wire
  | drainNext server toSend packet receiver hl hne =>
      rw [hl] at hsender
      constructor
      · exact hsender
      · intro server' toSend' packet' receiver' hl'
        cases hl'
      · exact drained.wire
  | pop server toSend packet receiver mdName head hl hpop =>
      have hclear : srv.Clear packet.entry := by simpa only [LooksAlone, hl] using halone
      rw [State.Clear, hpop] at hclear
      rw [hl] at hsender
      constructor
      · intro request hmem he
        refine ⟨(hsender request hmem he).1, fun hpopped => ?_⟩
        exact hclear request hmem (Option.some.inj hpopped).symm
      · intro server' toSend' packet' receiver' hl'
        cases hl'
      · intro p hp
        have hnone := apart.free packet.entry (by rw [hl]; rfl)
        rw [hnone] at hp
        cases hp
  | del server toSend packet receiver mdName hl hstore =>
      rw [hl] at hsender
      constructor
      · intro request hmem he
        obtain ⟨hpacked, hpopped⟩ := hsender request hmem he
        refine ⟨?_, by simp⟩
        intro hmem'
        have hname : request.key ∈ strtok packet.mdNames ∨ request.key = mdName := by
          simpa using hmem'
        rcases hname with hname | hname
        · exact hpacked hname
        · exact hpopped (congrArg some hname.symm)
      · intro server' toSend' packet' receiver' hl'
        cases hl'
      · exact drained.wire
  | send server toSend packet receiver hl =>
      constructor
      · intro request hmem he
        cases he
      · intro server' toSend' packet' receiver' hl'
        cases hl'
      · intro p hp
        cases hp
        exact (drained.sent server toSend packet receiver hl).1
  | unpackNext sender source entry mdName mdNames left hl =>
      rw [hl] at hsender
      constructor
      · exact hsender
      · intro server toSend packet receiver hl'
        cases hl'
        obtain ⟨hnil, hnot⟩ := drained.sent server toSend packet _ hl
        have hne : packet.entry ≠ entry := by
          intro heq
          exact apart.threads packet.entry (by rw [hl]; rfl) (by rw [hl, heq]; rfl)
        refine ⟨?_, hnot⟩
        show Function.update srv.inChargeMd entry _ packet.entry = []
        rwa [Function.update_of_ne hne]
      · intro p hp
        have hne : p.2.entry ≠ entry := by
          intro heq
          exact hunwired p hp (by rw [hl, heq]; rfl)
        show Function.update srv.inChargeMd entry _ p.2.entry = []
        rw [Function.update_of_ne hne]
        exact drained.wire p hp
  | usr2 | calculateSai | setEaclEpoch | resetAccess | threshold | noRebalancing
  | askRebalancing | incrAccess | storage | crash =>
      exact drained.congr rfl rfl hchange fun sender receiver hl' => Or.inr ⟨receiver, hl'⟩
  | _ =>
      refine drained.congr rfl rfl hchange fun sender receiver hl' => ?_
      cases hl' <;> first | exact Or.inl rfl | exact Or.inr ⟨_, ‹_›⟩

/-! ## Requests -/

theorem State.Drained.accept {srv : State n nb A C} (drained : srv.Drained) (client : C)
    {request : Request n} (hfree : srv.listener.draining ≠ some request.index) :
    State.Drained { srv with main := .incrAccess client request } where
  sender := by
    intro request' hmem he
    cases (Main.mem_change.mp hmem).1
    exact absurd he hfree
  sent := by
    intro server toSend packet receiver hl
    refine ⟨(drained.sent server toSend packet receiver hl).1, ?_⟩
    rintro ⟨request', hmem, he⟩
    cases (Main.mem_change.mp hmem).1
    apply hfree
    rw [show srv.listener = _ from hl, he]
    rfl
  wire := drained.wire

theorem State.Drained.answer {srv : State n nb A C} (drained : srv.Drained)
    (apart : srv.Apart) {client : C} {request : Request n} {done : Bool}
    {getValue : Option Data} (hmain : srv.main = .preSend client request done getValue) :
    State.Drained
      ({ srv with
        inChargeMd := Function.update srv.inChargeMd request.index
          (distributionPreSend (srv.inChargeMd request.index) request done).1
        main := .recv } : State n nb A C) := by
  -- an entry that the request does not change keeps its list
  have hkeeps : ∀ e, ¬ srv.main.Changing e →
      Function.update srv.inChargeMd request.index
        (distributionPreSend (srv.inChargeMd request.index) request done).1 e =
          srv.inChargeMd e := by
    intro e hnot
    by_cases he : e = request.index
    · subst he
      rw [hmain] at hnot
      rw [Function.update_self, distributionPreSend_of_not_changing hnot]
    · rw [Function.update_of_ne he]
  constructor
  · intro request' hmem
    cases (Main.mem_change.mp hmem).1
  · intro server toSend packet receiver hl
    obtain ⟨hnil, hnot⟩ := drained.sent server toSend packet receiver hl
    refine ⟨(hkeeps packet.entry hnot).trans hnil, ?_⟩
    rintro ⟨request', hmem, _⟩
    cases (Main.mem_change.mp hmem).1
  · intro p hp
    exact (hkeeps p.2.entry (apart.wire p hp)).trans (drained.wire p hp)

/-- In a server whose keys all have a spot, no storage operation of a transfer fails. -/
theorem unbroken_of_sound {srv : State n nb A C} (sound : srv.Sound) (l : Label) :
    Unbroken srv l := by
  cases l with
  | sender =>
      simp only [Unbroken]
      split
      · rename_i hl
        exact sound.popped _ (by rw [hl]; rfl)
      · trivial
  | receiver =>
      simp only [Unbroken]
      split
      · rename_i hl
        intro mdName hmem
        exact sound.putting mdName (by rw [hl]; exact hmem)
      · trivial
  | _ => trivial

end MeDiE.Server
