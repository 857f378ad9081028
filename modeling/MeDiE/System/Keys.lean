import MeDiE.Server.Grasp
import MeDiE.System.Names
import MeDiE.System.Ownership
import MeDiE.System.Quiet
import MeDiE.Verified.Holder

/-!
# Every key is in one place

A key has traces at the server that holds its entry and nowhere else, as long as no
sender overlooks a request.  A create puts it into the storage and the list, and the
transfers pass it on from the one holder to the next in their packets.
-/

namespace MeDiE.Server

variable {n nb : Nat} {A C : Type}

/-- The spots of a key that is kept: it is stored, or in a packet that is being filled,
is on the wire or is being unpacked. -/
def Spot.Kept : Spot → Prop
  | .nowhere | .created | .deleted => False
  | .stored | .popped | .packed | .wired | .waiting | .putting => True

/-- A key that is kept goes on to such a spot, unless it is deleted. -/
theorem Moved.kept {srv : State n nb A C} {k : Storage.Key} {spot spot' : Spot}
    (h : Moved srv k spot spot') (hkept : spot.Kept) :
    spot'.Kept ∨ ∃ request ∈ srv.main.change, isDelete request = true ∧ request.key = k := by
  cases h with
  | stay => exact Or.inl hkept
  | create => exact hkept.elim
  | delete client request hmain hdelete hkey =>
      have hmem : request ∈ srv.main.change :=
        Main.mem_change.mpr ⟨by rw [hmain]; rfl, Or.inr hdelete, by rw [hmain]; rfl⟩
      exact Or.inr ⟨request, hmem, hdelete, hkey⟩
  | pop | del | send | unpack | put => exact Or.inl trivial

theorem Moved.of_nowhere {srv : State n nb A C} {k : Storage.Key} {spot : Spot}
    (h : Moved srv k .nowhere spot) : spot = .nowhere ∨ spot = .created := by
  cases h with
  | stay => exact Or.inl rfl
  | create => exact Or.inr rfl

/-- Only a sender puts a packet on the wire. -/
theorem Step.wire [Eacl A n] {s : Fin nb} {srv srv' : State n nb A C} {l : Label}
    (h : Step s srv l srv') :
    srv'.wire = srv.wire ∨ ∃ server toSend packet receiver,
      srv.listener = .transfer (.send server toSend packet) receiver ∧
        srv'.wire = some (server, packet.finish) := by
  cases h with
  | send server toSend packet receiver hl =>
      exact Or.inr ⟨server, toSend, packet, receiver, hl, rfl⟩
  | _ => exact Or.inl rfl

end MeDiE.Server

namespace MeDiE.System

open MeDiE.Server
open MeDiE.Storage
open MeDiE.Verified
open MeDiE.Verified.Transition

variable {n nb : Nat} {A C : Type}

/-- No sender looks at a list with a request in its way. -/
def DrainsAlone (l : Label nb C) (x : State n nb A C) : Prop :=
  match l with
  | .server s l' => LooksAlone (x.srv s) l'
  | _ => True

instance (l : Label nb C) (x : State n nb A C) : Decidable (DrainsAlone l x) :=
  decidableOnServer (fun s l' => LooksAlone (x.srv s) l') l

/-- No main loop reads a key that is not stored. -/
def FindsReads (l : Label nb C) (x : State n nb A C) : Prop :=
  match l with
  | .server s l' => ReadsStored (x.srv s) l'
  | _ => True

instance (l : Label nb C) (x : State n nb A C) : Decidable (FindsReads l x) :=
  decidableOnServer (fun s l' => ReadsStored (x.srv s) l') l

/-- No sender looks at a list with a request in its way, and no process ends over a key
that it is asked for and does not store. -/
def KeepsKeys (l : Label nb C) (x : State n nb A C) : Prop :=
  DrainsAlone l x ∧ FindsReads l x

instance (l : Label nb C) (x : State n nb A C) : Decidable (KeepsKeys l x) :=
  inferInstanceAs (Decidable (DrainsAlone l x ∧ FindsReads l x))

/-! ## The threads of a server and the hand-over -/

section Hands

variable [NeZero nb] {x : State n nb A C} {h : Handover.State (Fin nb) (Fin n)}

/-- An entry that is being drained is still to be sent. -/
theorem phase_of_draining (rep : Represents x h) {s : Fin nb} {e : Fin n}
    (he : (x.srv s).listener.draining = some e) :
    ∃ todo rcv, (h.srv s).phase = .moving (.next (e :: todo)) rcv := by
  rw [rep.srv]
  cases hl : (x.srv s).listener with
  | transfer sender receiver =>
      rw [hl] at he
      simp only [handoverOf, phaseOf, hl]
      cases sender <;> cases he <;> exact ⟨_, _, rfl⟩
  | _ =>
      rw [hl] at he
      cases he

theorem stage_of_unpacking (rep : Represents x h) (hinv : Handover.Inv h) {s : Fin nb}
    {e : Fin n} (he : (x.srv s).listener.unpacking = some e) : h.stage e = .unpack := by
  have hphase : ∃ source, (h.srv s).phase.unpacking = some (source, e) := by
    rw [rep.srv]
    cases hl : (x.srv s).listener with
    | transfer sender receiver =>
        rw [hl] at he
        simp only [handoverOf, phaseOf, hl]
        cases receiver <;> cases he <;> exact ⟨_, rfl⟩
    | _ =>
        rw [hl] at he
        cases he
  obtain ⟨source, hsource⟩ := hphase
  exact ((hinv.server s).inHand source e).mp hsource |>.1

theorem stage_of_wire (rep : Represents x h) (hinv : Handover.Inv h) {s : Fin nb}
    {p : Fin nb × Packet n} (hp : (x.srv s).wire = some p) :
    h.stage p.2.entry = .wire ∧ s = h.prev p.2.entry ∧ p.1 = h.cur p.2.entry := by
  apply ((hinv.server s).wire p.1 p.2.entry).mp
  rw [rep.srv, handoverOf, hp]
  rfl

/-- The threads of a server and its requests keep apart. -/
theorem apart_of_open (rep : Represents x h) (hinv : Handover.Inv h) {s : Fin nb}
    (hopen : ∀ e, (x.srv s).main.Changing e → Handover.Open h s e)
    (hdrained : (x.srv s).Drained) : (x.srv s).Apart where
  threads := by
    intro e he hunpacking
    obtain ⟨todo, rcv, hphase⟩ := phase_of_draining rep he
    have hstage := (hinv.unsent_of_next hphase).1
    rw [stage_of_unpacking rep hinv hunpacking] at hstage
    cases hstage
  receiver := fun e he hchanging =>
    (hopen e hchanging).stage_ne.2 (stage_of_unpacking rep hinv he)
  wire := fun p hp hchanging =>
    (hopen _ hchanging).stage_ne.1 (stage_of_wire rep hinv hp).1
  free := by
    intro e he
    obtain ⟨todo, rcv, hphase⟩ := phase_of_draining rep he
    have hnone := hinv.wire_of_next hphase
    rw [rep.srv, handoverOf] at hnone
    exact Option.map_eq_none_iff.mp hnone
  sender := hdrained.sender

theorem unwired (rep : Represents x h) (hinv : Handover.Inv h) (s : Fin nb) :
    ∀ p, (x.srv s).wire = some p → (x.srv s).listener.unpacking ≠ some p.2.entry := by
  intro p hp hunpacking
  have hstage := (stage_of_wire rep hinv hp).1
  rw [stage_of_unpacking rep hinv hunpacking] at hstage
  cases hstage

end Hands

/-! ## What holds of a server -/

/-- What is true of the keys and the request of server `s`, when `live` are the keys
that are to be kept. -/
structure KeyInv (hash : Key → Fin n) (h : Handover.State (Fin nb) (Fin n))
    (live : Key → Bool) (s : Fin nb) (srv : Server.State n nb A C) : Prop where
  changing : ∀ e, srv.main.Changing e → Handover.Open h s e
  drained : srv.Drained
  grasped : srv.Grasped
  key : ∀ k, ∃ spot, srv.Has (hash k) k spot ∧
    (s ≠ h.holder (hash k) → spot = .nowhere) ∧
    (s = h.holder (hash k) → live k = true → spot.Kept)
  deleting : ∀ request ∈ srv.main.change, isDelete request = true →
    live request.key = false

section Local

variable {hash : Key → Fin n} {h h' : Handover.State (Fin nb) (Fin n)}
  {live live' : Key → Bool} {s : Fin nb} {srv srv' : Server.State n nb A C}

/-- The hand-over goes on elsewhere. -/
theorem KeyInv.rebase (inv : KeyInv hash h live s srv)
    (hholder : ∀ e, h'.holder e = h.holder e)
    (hopen : ∀ e, srv.main.Changing e → Handover.Open h' s e) :
    KeyInv hash h' live s srv where
  changing := hopen
  drained := inv.drained
  grasped := inv.grasped
  key := by
    intro k
    rw [hholder]
    exact inv.key k
  deleting := inv.deleting

/-- No other keys are to be kept at the server. -/
theorem KeyInv.weaken (inv : KeyInv hash h live s srv) (named : srv.Named hash)
    (hlive : ∀ k, live' k = true → live k = true ∨ s ≠ h.holder (hash k)) :
    KeyInv hash h live' s srv where
  changing := inv.changing
  drained := inv.drained
  grasped := inv.grasped
  key := by
    intro k
    obtain ⟨spot, has, haway, hkept⟩ := inv.key k
    exact ⟨spot, has, haway, fun hs hk => hkept hs ((hlive k hk).resolve_right (not_not.mpr hs))⟩
  deleting := by
    intro request hmem hdelete
    rw [Bool.eq_false_iff]
    intro hk
    have hopen := inv.changing (hash request.key) ⟨request, hmem, named.index_of_change hmem⟩
    have hold := (hlive _ hk).resolve_right (not_not.mpr hopen.holder)
    rw [inv.deleting request hmem hdelete] at hold
    cases hold

/-- Nothing happens to the names and the request. -/
theorem KeyInv.congr (inv : KeyInv hash h live s srv)
    (hlisted : srv'.inChargeMd = srv.inChargeMd) (hstore : srv'.store = srv.store)
    (hmain : srv'.main = srv.main) (hwire : srv'.wire = srv.wire)
    (hlistener : srv'.listener = srv.listener) : KeyInv hash h live s srv' where
  changing := by
    rw [hmain]
    exact inv.changing
  drained := inv.drained.congr hlisted hwire (fun _ hmem => hmain ▸ hmem) fun sender receiver hl =>
    Or.inr ⟨receiver, hlistener ▸ hl⟩
  grasped := inv.grasped.of_eq hlisted hmain hlistener
  key := by
    intro k
    obtain ⟨spot, has, hspot⟩ := inv.key k
    exact ⟨spot, has.setListener hlisted hstore hmain hwire (by rw [hlistener])
      (by rw [hlistener]) (by rw [hlistener]) (by rw [hlistener]), hspot⟩
  deleting := by
    rw [hmain]
    exact inv.deleting

/-- An answer to the packet that has been unpacked. -/
theorem KeyInv.reply (inv : KeyInv hash h live s srv) {sender : LoadSender n nb}
    {source : Fin nb} {entry : Fin n} {left : Nat}
    (hl : srv.listener = .transfer sender (.reply source entry left)) :
    KeyInv hash h live s { srv with listener := .transfer sender (.recv left) } where
  changing := inv.changing
  drained := inv.drained.congr rfl rfl (fun _ hmem => hmem) fun sender' receiver hl' => by
    cases hl'
    exact Or.inr ⟨_, hl⟩
  grasped := inv.grasped.receiver hl (by simp)
  key := by
    intro k
    obtain ⟨spot, has, hspot⟩ := inv.key k
    refine ⟨spot, has.setListener rfl rfl rfl rfl ?_ ?_ ?_ ?_, hspot⟩ <;> simp [hl]
  deleting := inv.deleting

/-- A step of the server itself. -/
theorem KeyInv.server [Eacl A n] {l : Server.Label} (inv : KeyInv hash h live s srv)
    (named : srv.Named hash) (apart : srv.Apart)
    (hunwired : ∀ p, srv.wire = some p → srv.listener.unpacking ≠ some p.2.entry)
    (halone : LooksAlone srv l) (hstep : Server.Step s srv l srv') :
    KeyInv hash h live s srv' := by
  have hchanging : ∀ e, srv'.main.Changing e → srv.main.Changing e := fun e hchange =>
    hchange.mono hstep.change
  constructor
  · exact fun e hchange => inv.changing e (hchanging e hchange)
  · exact hstep.drained inv.drained apart hunwired halone
  · exact hstep.grasped inv.grasped apart halone
  · intro k
    obtain ⟨spot, has, haway, hkept⟩ := inv.key k
    have sound : srv.Sound := State.sound_of_has fun k =>
      (inv.key k).imp fun _ hspot => hspot.1
    obtain ⟨spot', has', hmoved⟩ := has.step named apart sound halone inv.grasped.nullPointer hstep
    refine ⟨spot', has', ?_, ?_⟩
    · intro hs
      rw [haway hs] at hmoved
      refine hmoved.of_nowhere.resolve_right fun hcreated => ?_
      have hchange := changing_of_created (named.step hstep) (has'.created.mpr hcreated)
      exact hs (inv.changing _ (hchanging _ hchange)).holder
    · intro hs hk
      refine (hmoved.kept (hkept hs hk)).resolve_right ?_
      rintro ⟨request, hmem, hdelete, rfl⟩
      rw [inv.deleting request hmem hdelete] at hk
      cases hk
  · exact fun request hmem => inv.deleting request (hstep.change request hmem)

/-- A request is accepted. -/
theorem KeyInv.accept (inv : KeyInv hash h live s srv) (hmain : srv.main = .recv)
    (client : C) {request : Request n} (hopen : Handover.Open h s request.index)
    (hfree : srv.listener.draining ≠ some request.index)
    (hlive : ∀ k, live' k = true → live k = true)
    (hdelete : isDelete request = true → live' request.key = false) :
    KeyInv hash h live' s { srv with main := .incrAccess client request } where
  changing := by
    rintro e ⟨request', hmem, rfl⟩
    cases (Main.mem_change.mp hmem).1
    exact hopen
  drained := inv.drained.accept client hfree
  grasped := inv.grasped.accept client hfree
  key := by
    intro k
    obtain ⟨spot, has, haway, hkept⟩ := inv.key k
    exact ⟨spot, has.accept hmain client request, haway, fun hs hk => hkept hs (hlive k hk)⟩
  deleting := by
    intro request' hmem
    cases (Main.mem_change.mp hmem).1
    exact hdelete

/-- A request is answered. -/
theorem KeyInv.answer (inv : KeyInv hash h live s srv) (named : srv.Named hash)
    (apart : srv.Apart) {client : C} {request : Request n} {done : Bool}
    {getValue : Option Data} (hmain : srv.main = .preSend client request done getValue)
    (hlive : ∀ k, live' k = true → live k = true ∨
      done = true ∧ isCreate request = true ∧ request.key = k) :
    KeyInv hash h live' s
      ({ srv with
        inChargeMd := Function.update srv.inChargeMd request.index
          (distributionPreSend (srv.inChargeMd request.index) request done).1
        main := .recv } : Server.State n nb A C) where
  changing := by
    rintro e ⟨request', hmem, _⟩
    cases hmem
  drained := inv.drained.answer apart hmain
  grasped := inv.grasped.answer apart hmain
  key := by
    intro k
    obtain ⟨spot, has, haway, hkept⟩ := inv.key k
    obtain ⟨spot', has', hmoved⟩ := has.answer named apart hmain
    refine ⟨spot', has', ?_, ?_⟩
    · intro hs
      obtain rfl := haway hs
      rcases hmoved with ⟨h, _⟩ | ⟨h, _⟩ | ⟨_, _, h⟩
      · cases h
      · cases h
      · exact h
    · intro hs hk
      rcases hlive k hk with hk | ⟨hdone, hcreate, hkey⟩
      · have hspot := hkept hs hk
        rcases hmoved with ⟨rfl, _⟩ | ⟨rfl, _⟩ | ⟨_, _, rfl⟩
        · exact hspot.elim
        · exact hspot.elim
        · exact hspot
      · have hcreated : spot = .created := by
          apply has.created.mp
          rw [hmain]
          exact created_preSend.mpr ⟨hdone, hcreate, hkey⟩
        rcases hmoved with ⟨_, rfl⟩ | ⟨hspot, _⟩ | ⟨hspot, _⟩
        · trivial
        · rw [hcreated] at hspot
          cases hspot
        · exact absurd hcreated hspot
  deleting := by
    intro request' hmem
    cases hmem

/-- With its packet on the wire a server has no other trace of an entry. -/
theorem spot_of_wire (named : srv.Named hash) (apart : srv.Apart)
    (hdrained : srv.Drained)
    (hunwired : ∀ p, srv.wire = some p → srv.listener.unpacking ≠ some p.2.entry)
    {p : Fin nb × Packet n} (hp : srv.wire = some p) {k : Key} (hk : hash k = p.2.entry)
    {spot : Spot} (has : srv.Has (hash k) k spot) : spot = .nowhere ∨ spot = .wired := by
  have hlisted := has.listed
  rw [hk, hdrained.wire p hp, List.count_nil] at hlisted
  have hhand := has.inHand named
  rw [hk] at hhand
  cases spot with
  | nowhere => exact Or.inl rfl
  | wired => exact Or.inr rfl
  | stored => simp at hlisted
  | created => exact absurd hhand (apart.wire p hp)
  | deleted => exact absurd hhand (apart.wire p hp)
  | popped | packed =>
      rw [apart.free _ hhand] at hp
      cases hp
  | waiting => exact absurd hhand (hunwired p hp)
  | putting => exact absurd hhand (hunwired p hp)

/-- The packet of a server is taken off the wire. -/
theorem KeyInv.taken (inv : KeyInv hash h live s srv) (named : srv.Named hash)
    (apart : srv.Apart)
    (hunwired : ∀ p, srv.wire = some p → srv.listener.unpacking ≠ some p.2.entry)
    {p : Fin nb × Packet n} (hp : srv.wire = some p)
    (hopen : ∀ e, srv.main.Changing e → Handover.Open h' s e)
    (hholder : ∀ e, e ≠ p.2.entry → h'.holder e = h.holder e)
    (hs : s ≠ h'.holder p.2.entry) : KeyInv hash h' live s { srv with wire := none } where
  changing := hopen
  drained :=
    { sender := inv.drained.sender
      sent := inv.drained.sent
      wire := fun p hp => by cases hp }
  grasped := inv.grasped.of_eq rfl rfl rfl
  key := by
    intro k
    obtain ⟨spot, has, haway, hkept⟩ := inv.key k
    obtain ⟨spot', has', hspot⟩ := has.taken
    by_cases hk : hash k = p.2.entry
    · have hnowhere : spot' = .nowhere := by
        rcases hspot with ⟨_, rfl⟩ | ⟨hnot, rfl⟩
        · rfl
        · exact (spot_of_wire named apart inv.drained hunwired hp hk has).resolve_right hnot
      refine ⟨spot', has', fun _ => hnowhere, fun heq => ?_⟩
      rw [hk] at heq
      exact absurd heq hs
    · have hsame : spot' = spot := by
        rcases hspot with ⟨rfl, _⟩ | ⟨_, rfl⟩
        · obtain ⟨q, hq, hentry⟩ := has.inHand named
          rw [hp, Option.some.injEq] at hq
          exact absurd (hq ▸ hentry).symm hk
        · rfl
      rw [hholder _ hk]
      exact ⟨spot', has', hsame ▸ ⟨haway, hkept⟩⟩
  deleting := inv.deleting

/-- A receiver takes a packet that holds what there is of the entry. -/
theorem KeyInv.take (inv : KeyInv hash h live s srv) {sender : LoadSender n nb} {left : Nat}
    (hl : srv.listener = .transfer sender (.recv (left + 1))) (source : Fin nb)
    {packet : Packet n} (hnames : ∀ k ∈ packet.names, hash k = packet.entry)
    (hone : ∀ k, packet.names.count k ≤ 1)
    (hall : ∀ k, hash k = packet.entry → live k = true → k ∈ packet.names)
    (hopen : ∀ e, srv.main.Changing e → Handover.Open h' s e)
    (hholder : ∀ e, e ≠ packet.entry → h'.holder e = h.holder e)
    (hs : s ≠ h.holder packet.entry) (hs' : s = h'.holder packet.entry) :
    KeyInv hash h' live s
      { srv with
        listener := .transfer sender (.unpack source packet.entry packet.names left) } where
  changing := hopen
  drained := inv.drained.congr rfl rfl (fun _ hmem => hmem) fun sender' receiver hl' => by
    cases hl'
    exact Or.inr ⟨_, hl⟩
  grasped := inv.grasped.receiver hl (by simp)
  key := by
    intro k
    obtain ⟨spot, has, haway, hkept⟩ := inv.key k
    have hnowhere : hash k = packet.entry → spot = .nowhere := fun hk => by
      rw [hk] at haway
      exact haway hs
    obtain ⟨spot', has', hspot⟩ :=
      has.take hl source packet (fun hmem => hnowhere (hnames k hmem)) (hone k)
    refine ⟨spot', has', ?_, ?_⟩
    · intro hne
      have hk : hash k ≠ packet.entry := fun hk => hne (by rw [hk]; exact hs')
      rcases hspot with ⟨hmem, _⟩ | ⟨_, rfl⟩
      · exact absurd (hnames k hmem) hk
      · exact haway (by rwa [hholder _ hk] at hne)
    · intro heq hlive
      rcases hspot with ⟨_, rfl⟩ | ⟨hmem, rfl⟩
      · trivial
      · have hk : hash k ≠ packet.entry := fun hk => hmem (hall k hk hlive)
        exact hkept (by rwa [hholder _ hk] at heq) hlive
  deleting := inv.deleting

end Local

section Take

variable [NeZero nb] {hash : Key → Fin n} {x : State n nb A C}
  {h h' : Handover.State (Fin nb) (Fin n)}

/-- A packet goes from the holder of its entry to the next one. -/
theorem keyInv_takePacket (named : ∀ s, (x.srv s).Named hash) (rep : Represents x h)
    (hinv : Handover.Inv h) (inv : ∀ s, KeyInv hash h x.log.live s (x.srv s))
    (hopen : ∀ s e, (x.srv s).main.Changing e → Handover.Open h' s e) {w s : Fin nb}
    {sender : LoadSender n nb} {left : Nat} {packet : Packet n}
    (hw : (x.srv w).listener = .transfer sender (.recv (left + 1)))
    (hwire : (x.srv s).wire = some (w, packet))
    (hholder : ∀ e, e ≠ packet.entry → h'.holder e = h.holder e)
    (hnew : h'.holder packet.entry = w) :
    ∀ v, KeyInv hash h' x.log.live v
      (((x.setSrv s { x.srv s with wire := none }).setSrv w
        { (x.setSrv s { x.srv s with wire := none }).srv w with
          listener := .transfer sender (.unpack s packet.entry packet.names left) }).srv v) := by
  have apart := fun s => apart_of_open rep hinv (inv s).changing (inv s).drained
  have hunwired := unwired rep hinv
  obtain ⟨hstage, hprev, hcur⟩ := stage_of_wire rep hinv hwire
  have hold : h.holder packet.entry = s := by
    rw [hprev, Handover.State.holder, hstage]
  have hne : s ≠ w := by
    intro heq
    have hdone := hinv.same packet.entry (by rw [← hprev, ← hcur, heq])
    rw [hstage] at hdone
    cases hdone
  have hnames : ∀ k ∈ packet.names, hash k = packet.entry := (named s).wired _ hwire
  intro v
  by_cases hvw : v = w
  · subst hvw
    have hsrv : (x.setSrv s { x.srv s with wire := none }).srv v = x.srv v := by
      rw [setSrv_srv, Function.update_of_ne hne.symm]
    rw [setSrv_srv, Function.update_self, hsrv]
    refine (inv v).take hw s hnames ?_ ?_ (hopen v) hholder ?_ hnew.symm
    · intro k
      obtain ⟨spot, has, _⟩ := (inv s).key k
      have hcount := has.wired
      rw [hwire] at hcount
      change packet.names.count k = _ at hcount
      rw [hcount]
      split <;> omega
    · -- the key is kept at the old holder, so it is in the packet
      intro k hk hlive
      obtain ⟨spot, has, _, hkept⟩ := (inv s).key k
      have hspot := hkept (by rw [hk, hold]) hlive
      rcases spot_of_wire (named s) (apart s) (inv s).drained (hunwired s) hwire hk has with
        rfl | rfl
      · exact hspot.elim
      · have hcount := has.wired
        rw [hwire, if_pos rfl] at hcount
        change packet.names.count k = 1 at hcount
        exact List.count_pos_iff.mp (by omega)
    · rw [hold]
      exact hne.symm
  · rw [setSrv_srv, Function.update_of_ne hvw]
    by_cases hvs : v = s
    · subst hvs
      rw [setSrv_srv, Function.update_self]
      exact (inv v).taken (named v) (apart v) (hunwired v) hwire (hopen v) hholder
        (by rw [hnew]; exact hvw)
    · rw [setSrv_srv, Function.update_of_ne hvs]
      constructor
      · exact hopen v
      · exact (inv v).drained
      · exact (inv v).grasped
      · intro k
        obtain ⟨spot, has, haway, hkept⟩ := (inv v).key k
        by_cases hk : hash k = packet.entry
        · rw [hk] at haway hkept
          rw [hk, hnew]
          exact ⟨spot, hk ▸ has, fun _ => haway (by rw [hold]; exact hvs),
            fun heq => absurd heq hvw⟩
        · rw [hholder _ hk]
          exact ⟨spot, has, haway, hkept⟩
      · exact (inv v).deleting

end Take

/-! ## The keys that are to be kept -/

theorem live_accepted {log : Log n nb} {request : Request n} {k : Key}
    (hk : (log.accepted request).live k = true) : log.live k = true := by
  unfold Log.accepted at hk
  split at hk
  · by_cases heq : k = request.key
    · subst heq
      simp at hk
    · simpa [heq] using hk
  · exact hk

theorem live_accepted_delete {log : Log n nb} {request : Request n}
    (hdelete : isDelete request = true) :
    (log.accepted request).live request.key = false := by
  cases htype : request.reqType <;> simp_all [isDelete, Log.accepted]

/-- A key comes to be kept by a create that has been done. -/
theorem live_answered {log : Log n nb} {request : Request n} {head : List Key} {done : Bool}
    {getValue : Option Data} {k : Key}
    (hk : (log.answered request (replyOf request head done getValue : Reply n nb)).live k =
      true) :
    log.live k = true ∨ done = true ∧ isCreate request = true ∧ request.key = k := by
  unfold Log.answered at hk
  split at hk
  · rename_i data value htype hreply
    by_cases heq : request.key = k
    · refine Or.inr ⟨?_, by simp [isCreate, htype], heq⟩
      by_contra hdone
      simp [replyOf, hdone] at hreply
    · left
      simpa [Ne.symm heq] using hk
  · exact Or.inl hk

/-! ## A step of the system -/

section Steps

variable [Eacl A n] [DecidableEq C]

/-- A packet leaves the wire when it is taken, and comes to it from a sender. -/
theorem Step.wire {hash : Key → Fin n} {x y : State n nb A C} {l : Label nb C}
    (h : Step hash x l y) (s : Fin nb) :
    (y.srv s).wire = (x.srv s).wire ∨
      (∃ w, l = .takePacket w s ∧ (y.srv s).wire = none) ∨
      ∃ server toSend packet receiver,
        (x.srv s).listener = .transfer (.send server toSend packet) receiver ∧
          (y.srv s).wire = some (server, packet.finish) := by
  have hset : ∀ (z : State n nb A C) (v : Fin nb) (srv : Server.State n nb A C),
      srv.wire = (z.srv v).wire → ((z.setSrv v srv).srv s).wire = (z.srv s).wire := by
    intro z v srv hsrv
    by_cases hs : s = v
    · subst hs
      simpa using hsrv
    · simp [hs]
  have hlistener : ∀ (z : State n nb A C) (w : Fin nb) (listener : Listener n nb),
      ((z.setSrv w { z.srv w with listener := listener }).srv s).wire = (z.srv s).wire :=
    fun z w listener => hset z w _ rfl
  cases h with
  | server v l srv hstep =>
      by_cases hs : s = v
      · subst hs
        simp only [setSrv_srv, Function.update_self]
        rcases hstep.wire with heq | hsend
        · exact Or.inl heq
        · exact Or.inr (Or.inr hsend)
      · simp [hs]
  | takePacket w v sender left packet hw hwire =>
      rw [hlistener]
      by_cases hs : s = v
      · subst hs
        exact Or.inr (Or.inl ⟨w, rfl, by simp⟩)
      · simp [hs]
  | replyPacket w source sender entry left hw =>
      rw [hlistener]
      exact Or.inl (hset x source { x.srv source with ack := true } rfl)
  | usrHandler2 | manager | sendAsk | sendMlt | refuse | clientSend | clientRecv =>
      exact Or.inl rfl
  | _ => exact Or.inl (hset x _ _ rfl)

variable [NeZero nb] {hash : Key → Fin n} {x y : State n nb A C} {l : Label nb C}
  {h h' : Handover.State (Fin nb) (Fin n)}

/-- The requests that are between their steps stay at entries that are open. -/
theorem open_step (rep : Represents x h) (hinv : Handover.Inv h) (rep' : Represents y h')
    (hnext : h' = h ∨ Handover.Step h h')
    (inv : ∀ s, KeyInv hash h x.log.live s (x.srv s)) (hstep : Step hash x l y) (s : Fin nb) :
    ∀ e, (x.srv s).main.Changing e → Handover.Open h' s e := by
  intro e hchange
  have hopen := (inv s).changing e hchange
  rcases hnext with rfl | hnext
  · exact hopen
  · refine (hinv.step_open hnext hopen).resolve_right ?_
    rintro ⟨todo, rcv, hphase, hsent⟩
    have hnone := hinv.wire_of_next hphase
    rw [rep.srv, handoverOf] at hnone
    rw [rep'.srv, handoverOf] at hsent
    have hnone := Option.map_eq_none_iff.mp hnone
    rcases hstep.wire s with heq | ⟨w, _, heq⟩ | ⟨server, toSend, packet, receiver, hl, heq⟩
    · rw [heq, hnone] at hsent
      cases hsent
    · rw [heq] at hsent
      cases hsent
    · -- the sender has seen the list empty, and no request in its way
      rw [heq, Option.map_some, Option.some.injEq, Prod.mk.injEq] at hsent
      have hentry : packet.entry = e := hsent.2
      rw [← hentry] at hchange
      exact ((inv s).drained.sent server toSend packet receiver hl).2 hchange

/-- The holder of an entry changes only when its packet is taken. -/
theorem holder_step (rep : Represents x h) (hinv : Handover.Inv h) (rep' : Represents y h')
    (hnext : h' = h ∨ Handover.Step h h') (hstep : Step hash x l y) (e : Fin n)
    (hl : ∀ w s p, l = .takePacket w s → (x.srv s).wire = some p → p.2.entry ≠ e) :
    h'.holder e = h.holder e := by
  rcases hnext with rfl | hnext
  · rfl
  · refine (hinv.step_holder hnext e).resolve_right ?_
    rintro ⟨s, d, hwire, hnone⟩
    rw [rep.srv, handoverOf] at hwire
    rw [rep'.srv, handoverOf] at hnone
    have hnone := Option.map_eq_none_iff.mp hnone
    obtain ⟨p, hp, heq⟩ := Option.map_eq_some_iff.mp hwire
    rcases hstep.wire s with hsame | ⟨w, htake, _⟩ | ⟨_, _, _, _, _, hsent⟩
    · rw [hsame, hp] at hnone
      cases hnone
    · exact hl w s p htake hp (congrArg Prod.snd heq)
    · rw [hsent] at hnone
      cases hnone

/-- Where requests are accepted by the owners of their entries, a step keeps what holds
of the keys. -/
theorem keyInv_next (named : NamedInv hash x)
    (howner : ∀ s c request, (x.client c).point = .sent s request →
      distributionPostReceive (x.srv s).table request = .accepted →
      (x.srv s).table.idSrv request.index = s)
    (rep : Represents x h) (hinv : Handover.Inv h) (rep' : Represents y h')
    (hinv' : Handover.Inv h') (hnext : h' = h ∨ Handover.Step h h')
    (inv : ∀ s, KeyInv hash h x.log.live s (x.srv s)) (halone : DrainsAlone l x)
    (hstep : Step hash x l y) : ∀ s, KeyInv hash h' y.log.live s (y.srv s) := by
  have apart := fun s => apart_of_open rep hinv (inv s).changing (inv s).drained
  have hunwired := unwired rep hinv
  have hopen := open_step rep hinv rep' hnext inv hstep
  have hholder := holder_step rep hinv rep' hnext hstep
  -- the hand-over after the step, the servers as before it
  have hbase : (∀ w s, l ≠ .takePacket w s) →
      ∀ s, KeyInv hash h' x.log.live s (x.srv s) := fun hl s =>
    (inv s).rebase (fun e => hholder e fun w s p heq => absurd heq (hl w s)) (hopen s)
  let P : Fin nb → Server.State n nb A C → Prop := fun s srv =>
    KeyInv hash h' x.log.live s srv
  cases hstep with
  | usrHandler2 => exact hbase (by simp)
  | manager mgr hmgr => exact hbase (by simp)
  | recvHelp s epoch push hp hpush =>
      have inv' := hbase (by simp)
      exact forall_setSrv (P := P) inv' ((inv' s).congr rfl rfl rfl rfl rfl)
  | discardEacl s id sai loadLvl push hp hpush =>
      have inv' := hbase (by simp)
      exact forall_setSrv (P := P) inv' ((inv' s).congr rfl rfl rfl rfl rfl)
  | discardHelp s epoch nbRcv push hp hrcv hpush =>
      have inv' := hbase (by simp)
      exact forall_setSrv (P := P) inv' ((inv' s).congr rfl rfl rfl rfl rfl)
  | recvEacl s id sai loadLvl nbRcv push hp hrcv hpush =>
      have inv' := hbase (by simp)
      exact forall_setSrv (P := P) inv' ((inv' s).congr rfl rfl rfl rfl rfl)
  | sendAsk epoch hp => exact fun s => (hbase (by simp) s).congr rfl rfl rfl rfl rfl
  | sendMlt hp => exact fun s => (hbase (by simp) s).congr rfl rfl rfl rfl rfl
  | server s l srv hs =>
      have inv' := hbase (by simp)
      exact forall_setSrv (P := P) inv'
        ((inv' s).server (named.srv s) (apart s) (hunwired s) halone hs)
  | takePacket w s sender left packet hw hwire =>
      have hnew : h'.holder packet.entry = w := by
        have hstage := stage_of_unpacking rep' hinv' (s := w) (e := packet.entry) (by simp)
        have hcur : h'.cur = h.cur := by
          rw [rep'.cur, rep.cur]
          rfl
        rw [Handover.State.holder, hstage, hcur]
        exact (stage_of_wire rep hinv hwire).2.2.symm
      refine keyInv_takePacket named.srv rep hinv inv hopen hw hwire (fun e he => ?_) hnew
      apply hholder e
      intro w' s' p heq hp
      cases heq
      rw [hwire] at hp
      cases hp
      exact Ne.symm he
  | replyPacket w source sender entry left hw =>
      have inv' := hbase (by simp)
      have hacked : ∀ v, P v ((x.setSrv source { x.srv source with ack := true }).srv v) :=
        forall_setSrv (P := P) inv' ((inv' source).congr rfl rfl rfl rfl rfl)
      apply forall_setSrv (P := P) hacked
      exact (hacked w).reply (listener_setSrv hw rfl)
  | accept s c request hc hmain haccept =>
      have inv' := hbase (by simp)
      have howner := howner s c request hc haccept
      have hfree := (Server.distributionPostReceive_accepted.mp haccept).1
      have hactive : Handover.Active h s request.index :=
        (active_iff_owns rep s request.index).mpr ⟨howner, hfree⟩
      have hactive' : Handover.Active h' s request.index := by
        refine (active_iff_owns rep' s request.index).mpr ?_
        simpa [Owns] using And.intro howner hfree
      have hrest : ∀ v, KeyInv hash h' (x.log.accepted request).live v (x.srv v) := fun v =>
        (inv' v).weaken (named.srv v) fun k hk => Or.inl (live_accepted hk)
      refine forall_setSrv (P := fun v srv =>
        KeyInv hash h' (x.log.accepted request).live v srv) hrest ?_
      refine (inv' s).accept hmain c (hinv'.open_of_active hactive') ?_
        (fun k => live_accepted) live_accepted_delete
      intro hdraining
      obtain ⟨todo, rcv, hphase⟩ := phase_of_draining rep hdraining
      exact hinv.not_next_of_active hactive hphase
  | refuse s c request reply hc hmain hrefuse => exact hbase (by simp)
  | answer s c request done getValue hmain =>
      have inv' := hbase (by simp)
      -- a key that is new was created where its entry is held
      have hnew : ∀ v, v ≠ s → ∀ k, (x.log.answered request
          (replyOf request ((x.srv s).inChargeMd request.index) done getValue :
            Reply n nb)).live k = true → x.log.live k = true ∨ v ≠ h'.holder (hash k) := by
        intro v hv k hk
        refine (live_answered hk).imp_right ?_
        rintro ⟨rfl, hcreate, rfl⟩
        have hchange : (x.srv s).main.Changing (hash request.key) :=
          changing_of_created (named.srv s) (by
            rw [hmain]
            exact created_preSend.mpr ⟨rfl, hcreate, rfl⟩)
        rw [← (hopen s _ hchange).holder]
        exact hv
      intro v
      show KeyInv hash h' _ v (Function.update x.srv s _ v)
      by_cases hv : v = s
      · subst hv
        rw [Function.update_self]
        exact (inv' v).answer (named.srv v) (apart v) hmain fun k => live_answered
      · rw [Function.update_of_ne hv]
        exact (inv' v).weaken (named.srv v) (hnew v hv)
  | clientSend c key reqType hc => exact hbase (by simp)
  | clientRecv c reply hc => exact hbase (by simp)

theorem keyInv_step (hx : Reachable hash x) (rep : Represents x h) (hinv : Handover.Inv h)
    (rep' : Represents y h') (hinv' : Handover.Inv h')
    (hnext : h' = h ∨ Handover.Step h h')
    (inv : ∀ s, KeyInv hash h x.log.live s (x.srv s)) (halone : DrainsAlone l x)
    (hstep : Step hash x l y) : ∀ s, KeyInv hash h' y.log.live s (y.srv s) :=
  keyInv_next (namedInv_of_reachable hx)
    (fun _ _ _ hc => owner_of_accept (historyInv_of_reachable hx) (issuedInv_of_reachable hx) hc)
    rep hinv rep' hinv' hnext inv halone hstep

/-! ## Runs -/

omit [DecidableEq C] in
theorem keyInv_init : ∀ s, KeyInv hash (Handover.init (curOwner ([] : List (MltPacket n nb))))
    (fun _ => false) s ((init n nb A C).srv s) := by
  intro s
  constructor
  · rintro e ⟨request, hmem, _⟩
    cases hmem
  · constructor
    · intro e he
      cases he
    · intro server toSend packet receiver hl
      cases hl
    · intro p hp
      cases hp
  · constructor
    · intro server toSend packet receiver hl
      cases hl
    · intro sender source entry mdNames left hl
      cases hl
  · intro k
    refine ⟨.nowhere, ?_, fun _ => rfl, fun _ hk => by cases hk⟩
    constructor <;> simp [init, Server.State.init, Main.created, Main.deleted, namesOf]
  · intro request hmem
    cases hmem

omit [Eacl A n] [DecidableEq C] [NeZero nb] in
/-- A run in which the senders look at the lists alone meets no storage error. -/
theorem noError_of_keyInv (inv : ∀ s, KeyInv hash h x.log.live s (x.srv s)) :
    NoError l x := by
  cases l with
  | server s l =>
      have sound : (x.srv s).Sound := State.sound_of_has fun k =>
        ((inv s).key k).imp fun _ hspot => hspot.1
      exact unbroken_of_sound sound l
  | _ => trivial

omit [NeZero nb] in
/-- A process ends only over a key that it is asked for and does not store. -/
theorem alive_step (inv : ∀ s, KeyInv hash h x.log.live s (x.srv s))
    (halive : ∀ s, (x.srv s).main.alive = true) (hreads : FindsReads l x)
    (hstep : Step hash x l y) : ∀ s, (y.srv s).main.alive = true := by
  let P : Fin nb → Server.State n nb A C → Prop := fun _ srv => srv.main.alive = true
  cases hstep with
  | usrHandler2 | manager | refuse | clientSend | clientRecv | sendAsk | sendMlt => exact halive
  | server s l srv hs =>
      exact forall_setSrv (P := P) halive (hs.alive (inv s).grasped (halive s) hreads)
  | recvHelp s | discardEacl s | discardHelp s | recvEacl s =>
      exact forall_setSrv (P := P) halive (halive s)
  | takePacket w s =>
      have htaken : ∀ v, P v ((x.setSrv s { x.srv s with wire := none }).srv v) :=
        forall_setSrv (P := P) halive (halive s)
      exact forall_setSrv (P := P) htaken (htaken w)
  | replyPacket w source =>
      have hacked : ∀ v, P v ((x.setSrv source { x.srv source with ack := true }).srv v) :=
        forall_setSrv (P := P) halive (halive source)
      exact forall_setSrv (P := P) hacked (hacked w)
  | accept s | answer s => exact forall_setSrv (P := P) halive rfl

theorem keyInv_of_run (hx : Reach (init n nb A C) (StepsIf (step hash) DrainsAlone) x) :
    Reachable hash x ∧ ∃ h, Handover.Inv h ∧ Represents x h ∧
      ∀ s, KeyInv hash h x.log.live s (x.srv s) := by
  have hreach : ∀ z : State n nb A C,
      Reach (init n nb A C) (StepsIf (step hash) DrainsAlone) z → Reachable hash z :=
    fun z hz => hz.mono fun _ _ => StepsIf.steps
  refine ⟨hreach x hx, ?_⟩
  apply Reach.invariant _ _ hx
  · exact ⟨_, Handover.inv_init _, represents_init, keyInv_init⟩
  · rintro x y hx ⟨h, hinv, rep, inv⟩ ⟨l, halone, hl⟩
    have hstep := step_cases hl
    obtain ⟨h', hnext, rep'⟩ :=
      represents_step (hreach x hx) rep hinv (noError_of_keyInv inv) hstep
    have hinv' : Handover.Inv h' := by
      rcases hnext with rfl | hnext
      · exact hinv
      · exact hinv.step hnext
    exact ⟨h', hinv', rep',
      keyInv_step (hreach x hx) rep hinv rep' hinv' hnext inv halone hstep⟩

omit [Eacl A n] [DecidableEq C] in
/-- Without a transfer under way a key that is kept is stored. -/
theorem stored_of_settled (rep : Represents x h) (hinv : Handover.Inv h)
    (hsettled : ∀ s, (h.srv s).phase = .settled) {s : Fin nb} {k : Key} {spot : Spot}
    (hhand : (x.srv s).InHand (hash k) spot) (hkept : spot.Kept) : spot = .stored := by
  have hdone := hinv.all_done hsettled
  have hdraining : (x.srv s).listener.draining ≠ some (hash k) := by
    intro he
    obtain ⟨todo, rcv, hphase⟩ := phase_of_draining rep he
    rw [hsettled s] at hphase
    cases hphase
  have hunpacking : (x.srv s).listener.unpacking ≠ some (hash k) := by
    intro he
    have hstage := stage_of_unpacking rep hinv he
    rw [hdone] at hstage
    cases hstage
  cases spot with
  | nowhere | created | deleted => exact hkept.elim
  | stored => rfl
  | popped => exact absurd hhand hdraining
  | packed => exact absurd hhand hdraining
  | wired =>
      obtain ⟨p, hp, _⟩ := hhand
      have hstage := (stage_of_wire rep hinv hp).1
      rw [hdone] at hstage
      cases hstage
  | waiting => exact absurd hhand hunpacking
  | putting => exact absurd hhand hunpacking

/-- Where the senders look at the lists alone and no server is asked for a key that it
does not store, no process ends. -/
theorem alive_of_run (hx : Reach (init n nb A C) (StepsIf (step hash) KeepsKeys) x) :
    ∀ s, (x.srv s).main.alive = true := by
  apply Reach.invariant _ _ hx
  · exact fun s => rfl
  · rintro x y hx halive ⟨l, hkeeps, hl⟩
    obtain ⟨_, h, _, _, inv⟩ :=
      keyInv_of_run (hx.mono fun _ _ ⟨l, hkeeps, hl⟩ => ⟨l, hkeeps.1, hl⟩)
    exact alive_step inv halive hkeeps.2 (step_cases hl)

/-- In a run in which no sender looks at a list with a create or a delete in its way, and
no main loop reads a key that is not stored, a key whose create has been done and that no
delete has been started for is in one place: it is stored at one server, or is in one
packet, the process of the server is there, and there is no trace of the key anywhere
else.  When the servers are done with the tables it is stored at the owner of its entry. -/
theorem key_in_one_place (hash : Key → Fin n) (x : State n nb A C)
    (hx : Reach (init n nb A C) (StepsIf (step hash) KeepsKeys) x) (k : Key)
    (hlive : x.log.live k = true) :
    ∃ s spot, spot.Kept ∧ (x.srv s).Has (hash k) k spot ∧ (x.srv s).main.alive = true ∧
      (∀ w, w ≠ s → (x.srv w).Has (hash k) k .nowhere) ∧
      (∀ w e, e ≠ hash k → k ∉ (x.srv w).inChargeMd e) ∧
      ((∀ w, Finished (x.srv w)) →
        s = curOwner x.log.mlts (hash k) ∧ spot = .stored) := by
  obtain ⟨hreach, h, hinv, rep, inv⟩ :=
    keyInv_of_run (hx.mono fun _ _ ⟨l, hkeeps, hl⟩ => ⟨l, hkeeps.1, hl⟩)
  have named := (namedInv_of_reachable hreach).srv
  obtain ⟨spot, has, _, hkept⟩ := (inv (h.holder (hash k))).key k
  have hspot := hkept rfl hlive
  refine ⟨h.holder (hash k), spot, hspot, has, alive_of_run hx _, ?_, ?_, ?_⟩
  · intro w hw
    obtain ⟨spot', has', haway, _⟩ := (inv w).key k
    exact haway hw ▸ has'
  · intro w e he hmem
    exact he ((named w).listed e k hmem).symm
  · intro hfinished
    have hsettled : ∀ s, (h.srv s).phase = .settled := by
      intro s
      rw [rep.srv]
      exact settled_of_finished (hfinished s)
    constructor
    · rw [hinv.holder_of_settled hsettled, rep.cur]
    · exact stored_of_settled rep hinv hsettled (has.inHand (named _)) hspot

end Steps

/-- After the first round of the sample run the key of the entry that has moved is stored
at server 1. -/
theorem key_in_one_place_first_round :
    ∃ x : SampleState, x.log.live keyA = true ∧ (x.srv 1).Has 0 keyA .stored ∧
      (x.srv 0).Has 0 keyA .nowhere := by
  have hrun : ((run (guarded (step sampleHash) KeepsKeys)
      (askRun ++ collectRun ++ transferRun) (init 4 2 (EaclIndedh.EaclData 4) Unit)).any
        fun x => decide (x.log.live keyA = true ∧ curOwner x.log.mlts 0 = 1 ∧
          ∀ s, Poll.Msg.commit ∉ (x.srv s).pending)) = true := by
    decide +kernel
  obtain ⟨x, hx, hp⟩ := (Option.any_eq_true _ _).mp hrun
  obtain ⟨hlive, howner, hfinished⟩ := of_decide_eq_true hp
  obtain ⟨s, spot, _, has, _, haway, _, hmoreover⟩ :=
    key_in_one_place sampleHash x (reach_of_guarded_run _ hx) keyA hlive
  obtain ⟨hs, rfl⟩ := hmoreover hfinished
  have hs : s = 1 := hs.trans howner
  subst hs
  exact ⟨x, hlive, has, haway 0 (by decide)⟩

section Sample

/-- Key `a` is asked for before it exists, and server 0 asks for a rebalancing. -/
def absentRun : List (System.Label 2 Unit) :=
  requestRun 0 keyA (.update .empty) ++ requestRun 0 keyA (.update .empty) ++
    requestRun 0 keyK (.create .empty) ++ requestRun 0 keyK (.update .empty) ++
    .usrHandler2 :: signalRun 0 ++ signalRun 1 ++
    [.managerRecv 0, .manager, .manager, .manager, .manager, .managerSend]

/-- Server 0 creates the file of the key, and its main loop stops before the answer. -/
def createRun : List (System.Label 2 Unit) :=
  [.clientSend () keyA (.create .empty), .mainRecv 0 (), .server 0 .main, .server 0 .main]

/-- Entry 0 is transferred with no name in its list. -/
def emptyTransferRun : List (System.Label 2 Unit) :=
  [.manager, .managerSend, .manager] ++ threadRun 0 .listener 6 ++
    threadRun 1 .listener 6 ++ threadRun 0 .sender 5 ++ .takePacket 1 0 ::
    threadRun 1 .receiver 3 ++ .replyPacket 1 :: threadRun 0 .sender 2 ++
    threadRun 0 .receiver 1 ++ threadRun 1 .sender 1 ++ threadRun 1 .receiver 1 ++
    threadRun 0 .listener 1 ++ threadRun 1 .listener 1

/-- Server 0 answers that the key has been created, and a client creates it at server 1
once more. -/
def createAgainRun : List (System.Label 2 Unit) :=
  [.mainReply 0, .clientRecv (), .clientSend () keyA (.create .empty), .mainRecv 0 (),
    .clientRecv ()] ++ requestRun 1 keyA (.create .empty)

end Sample

/-- The sender of server 0 does not wait for a create that has its file and not its name
yet.  The key stays behind at server 0, and after a second create it is stored at both
servers. -/
theorem exists_key_in_two_places :
    (∃ x : SampleState, Reachable sampleHash x ∧ x.log.live keyA = true ∧
      (∀ s, Finished (x.srv s) ∧ (x.srv s).main.request = none) ∧
      curOwner x.log.mlts 0 = 1 ∧ (x.srv 0).store keyA = some .empty ∧
      (x.srv 0).inChargeMd 0 = [keyA] ∧ (x.srv 1).store keyA = none) ∧
    ∃ x : SampleState, Reachable sampleHash x ∧ x.log.live keyA = true ∧
      (∀ s, (x.srv s).store keyA = some .empty ∧ (x.srv s).inChargeMd 0 = [keyA]) ∧
      ¬ ∃ s spot, spot.Kept ∧ (x.srv s).Has (sampleHash keyA) keyA spot ∧
        ∀ w, w ≠ s → (x.srv w).Has (sampleHash keyA) keyA .nowhere := by
  constructor
  · obtain ⟨x, hx, hp⟩ := exists_of_sampleRun
      (absentRun ++ collectRun ++ createRun ++ emptyTransferRun ++ createAgainRun.take 1)
      (fun x => decide (x.log.live keyA = true ∧
        (∀ s, Poll.Msg.commit ∉ (x.srv s).pending ∧ (x.srv s).main.request = none) ∧
        curOwner x.log.mlts 0 = 1 ∧ (x.srv 0).store keyA = some .empty ∧
        (x.srv 0).inChargeMd 0 = [keyA] ∧ (x.srv 1).store keyA = none)) (by decide +kernel)
    have hstate := of_decide_eq_true hp
    exact ⟨x, hx, hstate⟩
  · obtain ⟨x, hx, hp⟩ := exists_of_sampleRun
      (absentRun ++ collectRun ++ createRun ++ emptyTransferRun ++ createAgainRun)
      (fun x => decide (x.log.live keyA = true ∧
        ∀ s, (x.srv s).store keyA = some .empty ∧ (x.srv s).inChargeMd 0 = [keyA]))
      (by decide +kernel)
    obtain ⟨hlive, hstored⟩ := of_decide_eq_true hp
    refine ⟨x, hx, hlive, hstored, ?_⟩
    rintro ⟨s, spot, _, _, haway⟩
    -- the server that is not the one has the file too
    obtain ⟨w, hw⟩ : ∃ w : Fin 2, w ≠ s := exists_ne s
    have hfile := (haway w hw).file
    rw [(hstored w).1] at hfile
    simp at hfile

end MeDiE.System
