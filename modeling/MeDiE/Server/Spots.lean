import MeDiE.Server.Step

/-!
# Where a key is at a server

A key of an entry is stored at a server when the server has its file and its name.  In a
request and in a transfer one comes before the other, and in a packet there is the name
alone.  `State.Has` says which of this holds, and a step takes a key from one spot to
the next.
-/

namespace MeDiE.Server

open MeDiE.Storage
open MeDiE.Table

variable {n nb : Nat} {A C : Type}

/-! ## What the threads have in hand -/

/-- The entry that a sender is draining. -/
@[simp] def LoadSender.draining : LoadSender n nb → Option (Fin n)
  | .drain _ _ packet => some packet.entry
  | .pop _ _ packet => some packet.entry
  | .del _ _ packet _ => some packet.entry
  | .send _ _ packet => some packet.entry
  | _ => none

/-- The names in the packet that a sender is filling. -/
@[simp] def LoadSender.packed : LoadSender n nb → List Key
  | .drain _ _ packet => strtok packet.mdNames
  | .pop _ _ packet => strtok packet.mdNames
  | .del _ _ packet _ => strtok packet.mdNames
  | .send _ _ packet => strtok packet.mdNames
  | _ => []

/-- The name that a sender has taken out of the list and whose file it is to delete. -/
@[simp] def LoadSender.popped : LoadSender n nb → Option Key
  | .del _ _ _ mdName => some mdName
  | _ => none

/-- The entry that a receiver is unpacking. -/
@[simp] def LoadReceiver.unpacking : LoadReceiver n nb → Option (Fin n)
  | .unpack _ entry _ _ => some entry
  | .put _ entry _ _ => some entry
  | _ => none

/-- The names that a receiver has still to unpack. -/
@[simp] def LoadReceiver.waiting : LoadReceiver n nb → List Key
  | .unpack _ _ mdNames _ => mdNames
  | .put _ _ mdNames _ => mdNames
  | _ => []

/-- The name that a receiver has put into the list and whose file it is to create. -/
@[simp] def LoadReceiver.putting (inChargeMd : Fin n → List Key) : LoadReceiver n nb → Option Key
  | .put _ entry _ _ => (inChargeMd entry).head?
  | _ => none

@[simp] def Listener.draining : Listener n nb → Option (Fin n)
  | .transfer sender _ => sender.draining
  | _ => none

@[simp] def Listener.packed : Listener n nb → List Key
  | .transfer sender _ => sender.packed
  | _ => []

@[simp] def Listener.popped : Listener n nb → Option Key
  | .transfer sender _ => sender.popped
  | _ => none

@[simp] def Listener.unpacking : Listener n nb → Option (Fin n)
  | .transfer _ receiver => receiver.unpacking
  | _ => none

@[simp] def Listener.waiting : Listener n nb → List Key
  | .transfer _ receiver => receiver.waiting
  | _ => []

@[simp] def Listener.putting (inChargeMd : Fin n → List Key) : Listener n nb → Option Key
  | .transfer _ receiver => receiver.putting inChargeMd
  | _ => none

/-- The names in the packet on the wire. -/
def namesOf (wire : Option (Fin nb × Packet n)) : List Key :=
  match wire with
  | some (_, packet) => packet.names
  | none => []

/-- The request that the main loop is between the steps of. -/
@[simp] def Main.request : Main n C → Option (Request n)
  | .recv => none
  | .incrAccess _ request => some request
  | .storage _ request => some request
  | .preSend _ request _ _ => some request
  | .crashed => none

def isCreate (request : Request n) : Bool :=
  match request.reqType with
  | .create _ => true
  | _ => false

def isDelete (request : Request n) : Bool :=
  match request.reqType with
  | .delete => true
  | _ => false

/-- The key whose file has been created and whose name is not in the list yet. -/
def Main.created : Main n C → Option Key
  | .preSend _ request true _ => if isCreate request = true then some request.key else none
  | _ => none

/-- The key whose file has been deleted and whose name is still in the list. -/
def Main.deleted : Main n C → Option Key
  | .preSend _ request true _ => if isDelete request = true then some request.key else none
  | _ => none

theorem created_preSend {client : C} {request : Request n} {done : Bool}
    {getValue : Option Data} {k : Key} :
    (Main.preSend client request done getValue).created = some k ↔
      done = true ∧ isCreate request = true ∧ request.key = k := by
  cases done <;> simp [Main.created]

theorem deleted_preSend {client : C} {request : Request n} {done : Bool}
    {getValue : Option Data} {k : Key} :
    (Main.preSend client request done getValue).deleted = some k ↔
      done = true ∧ isDelete request = true ∧ request.key = k := by
  cases done <;> simp [Main.deleted]

/-- The storage operation of the request has failed. -/
def Main.failed : Main n C → Bool
  | .preSend _ _ done _ => !done
  | _ => false

/-- The create or delete that the main loop is between the steps of, unless it has
failed and will change nothing any more. -/
def Main.change (main : Main n C) : Option (Request n) :=
  main.request.filter fun request => (isCreate request || isDelete request) && !main.failed

theorem Main.mem_change {main : Main n C} {request : Request n} :
    request ∈ main.change ↔ request ∈ main.request ∧
      (isCreate request = true ∨ isDelete request = true) ∧ main.failed = false := by
  rw [Main.change, Option.mem_filter_iff, Bool.and_eq_true, Bool.or_eq_true, Bool.not_eq_true']

/-- The main loop is between the steps of a create or a delete for the entry, which has
not failed. -/
def Main.Changing (main : Main n C) (e : Fin n) : Prop :=
  ∃ request ∈ main.change, request.index = e

/-! ## Spots -/

/-- Where a key is. -/
inductive Spot
  | nowhere
  | created
  | stored
  | deleted
  | popped
  | packed
  | wired
  | waiting
  | putting
  deriving DecidableEq

/-- The key is at the spot, and no trace of it is at any other spot of the server. -/
structure State.Has (srv : State n nb A C) (e : Fin n) (k : Key) (spot : Spot) : Prop where
  listed : (srv.inChargeMd e).count k =
    if spot = .stored ∨ spot = .deleted ∨ spot = .putting then 1 else 0
  file : srv.store k ≠ none ↔ spot = .stored ∨ spot = .created ∨ spot = .popped
  created : srv.main.created = some k ↔ spot = .created
  deleted : srv.main.deleted = some k ↔ spot = .deleted
  popped : srv.listener.popped = some k ↔ spot = .popped
  packed : srv.listener.packed.count k = if spot = .packed then 1 else 0
  wired : (namesOf srv.wire).count k = if spot = .wired then 1 else 0
  waiting : srv.listener.waiting.count k = if spot = .waiting then 1 else 0
  putting : srv.listener.putting srv.inChargeMd = some k ↔ spot = .putting

/-- Every name is with the entry of its key. -/
structure State.Named (hash : Key → Fin n) (srv : State n nb A C) : Prop where
  listed : ∀ e, ∀ k ∈ srv.inChargeMd e, hash k = e
  popped : ∀ e k, srv.listener.draining = some e → srv.listener.popped = some k → hash k = e
  packed : ∀ e, srv.listener.draining = some e → ∀ k ∈ srv.listener.packed, hash k = e
  wired : ∀ p, srv.wire = some p → ∀ k ∈ p.2.names, hash k = p.2.entry
  waiting : ∀ e, srv.listener.unpacking = some e → ∀ k ∈ srv.listener.waiting, hash k = e
  request : ∀ request ∈ srv.main.request, request.index = hash request.key

/-- Listeners that have in hand at most what the one before had. -/
structure Listener.Below (listener listener' : Listener n nb) : Prop where
  popped : ∀ e k, listener'.draining = some e → listener'.popped = some k →
    listener.draining = some e ∧ listener.popped = some k
  packed : ∀ e k, listener'.draining = some e → k ∈ listener'.packed →
    listener.draining = some e ∧ k ∈ listener.packed
  waiting : ∀ e k, listener'.unpacking = some e → k ∈ listener'.waiting →
    listener.unpacking = some e ∧ k ∈ listener.waiting

theorem State.Named.setListener {hash : Key → Fin n} {srv srv' : State n nb A C}
    (named : srv.Named hash) (hlisted : srv'.inChargeMd = srv.inChargeMd)
    (hwire : srv'.wire = srv.wire) (hmain : srv'.main.request = srv.main.request)
    (hbelow : srv.listener.Below srv'.listener) : srv'.Named hash where
  listed := hlisted ▸ named.listed
  popped := fun e k he hk =>
    named.popped e k (hbelow.popped e k he hk).1 (hbelow.popped e k he hk).2
  packed := fun e he k hk =>
    named.packed e (hbelow.packed e k he hk).1 k (hbelow.packed e k he hk).2
  wired := hwire ▸ named.wired
  waiting := fun e he k hk =>
    named.waiting e (hbelow.waiting e k he hk).1 k (hbelow.waiting e k he hk).2
  request := hmain ▸ named.request

section Steps

variable [Eacl A n] {hash : Key → Fin n}

theorem State.Named.step {s : Fin nb} {srv srv' : State n nb A C} {l : Label}
    (named : srv.Named hash) (h : Step s srv l srv') : srv'.Named hash := by
  cases h with
  | pop server toSend packet receiver mdName head hl hpop =>
      obtain ⟨listed, popped, packed, wired, waiting, request⟩ := named
      rw [hl] at popped packed waiting
      refine ⟨?_, ?_, packed, wired, waiting, request⟩
      · intro e k hk
        by_cases he : e = packet.entry
        · subst he
          apply listed
          rw [hpop]
          exact List.mem_cons_of_mem _ (by simpa using hk)
        · exact listed e k (by simpa [he] using hk)
      · intro e k he hk
        have he' : packet.entry = e := by simpa using he
        have hk' : mdName = k := by simpa using hk
        subst he' hk'
        exact listed _ _ (by simp [hpop])
  | del server toSend packet receiver mdName hl hstore =>
      obtain ⟨listed, popped, packed, wired, waiting, request⟩ := named
      rw [hl] at popped packed waiting
      refine ⟨listed, by simp, ?_, wired, waiting, request⟩
      intro e he k hk
      have hk' : k ∈ strtok packet.mdNames ∨ k = mdName := by simpa using hk
      rcases hk' with hk' | rfl
      · exact packed e he k hk'
      · exact popped e k he rfl
  | send server toSend packet receiver hl =>
      obtain ⟨listed, popped, packed, wired, waiting, request⟩ := named
      rw [hl] at popped packed waiting
      refine ⟨listed, by simp, by simp, ?_, waiting, request⟩
      intro p hp k hk
      cases hp
      exact packed packet.entry rfl k (by simpa using hk)
  | unpackNext sender source entry mdName mdNames left hl =>
      obtain ⟨listed, popped, packed, wired, waiting, request⟩ := named
      rw [hl] at popped packed waiting
      refine ⟨?_, popped, packed, wired, ?_, request⟩
      · intro e k hk
        by_cases he : e = entry
        · subst he
          have hk' : k = mdName ∨ k ∈ srv.inChargeMd e := by simpa using hk
          rcases hk' with rfl | hk'
          · exact waiting e rfl k (by simp)
          · exact listed e k hk'
        · exact listed e k (by simpa [he] using hk)
      · intro e he k hk
        exact waiting e he k (List.mem_cons_of_mem _ hk)
  | put sender source entry mdNames left mdName head hl hhead hstore =>
      refine named.setListener rfl rfl rfl ?_
      rw [hl]
      constructor <;> exact fun e k he hk => ⟨he, hk⟩
  | storage client request store done getValue hmain hstore =>
      refine named.setListener rfl rfl (by rw [hmain]; rfl) ?_
      constructor <;> exact fun e k he hk => ⟨he, hk⟩
  | incrAccess client request hmain =>
      refine named.setListener rfl rfl (by rw [hmain]; rfl) ?_
      constructor <;> exact fun e k he hk => ⟨he, hk⟩
  | usr2 | calculateSai | setEaclEpoch | resetAccess | threshold | noRebalancing
  | askRebalancing =>
      exact ⟨named.listed, named.popped, named.packed, named.wired, named.waiting, named.request⟩
  | crash =>
      exact ⟨named.listed, named.popped, named.packed, named.wired, named.waiting,
        fun request hmem => by cases hmem⟩
  | _ =>
      refine named.setListener rfl rfl rfl ?_
      rw [‹srv.listener = _›]
      constructor <;> intro e k he hk
      all_goals first | exact ⟨he, hk⟩ | simp at he hk

end Steps

/-! ## The request and the threads keep apart -/

/-- A request that is between its steps and the threads of a transfer are at different
entries; only a sender that has not looked at the end of the list yet may be at the entry
of a request for a name that it has not taken. -/
structure State.Apart (srv : State n nb A C) : Prop where
  threads : ∀ e, srv.listener.draining = some e → srv.listener.unpacking ≠ some e
  receiver : ∀ e, srv.listener.unpacking = some e → ¬ srv.main.Changing e
  wire : ∀ p, srv.wire = some p → ¬ srv.main.Changing p.2.entry
  free : ∀ e, srv.listener.draining = some e → srv.wire = none
  sender : ∀ request ∈ srv.main.change, srv.listener.draining = some request.index →
    request.key ∉ srv.listener.packed ∧ srv.listener.popped ≠ some request.key

/-- The next storage operation of a transfer does not fail. -/
structure State.Sound (srv : State n nb A C) : Prop where
  popped : ∀ k, srv.listener.popped = some k → srv.store k ≠ none
  putting : ∀ k, srv.listener.putting srv.inChargeMd = some k → srv.store k = none

theorem State.sound_of_has {hash : Key → Fin n} {srv : State n nb A C}
    (hall : ∀ k, ∃ spot, srv.Has (hash k) k spot) : srv.Sound where
  popped := fun k hk => by
    obtain ⟨spot, has⟩ := hall k
    exact has.file.mpr (Or.inr (Or.inr (has.popped.mp hk)))
  putting := fun k hk => by
    obtain ⟨spot, has⟩ := hall k
    have hspot := has.putting.mp hk
    by_contra hne
    have hfile := has.file.mp hne
    simp [hspot] at hfile

theorem change_of_created {main : Main n C} {k : Key} (hk : main.created = some k) :
    ∃ request ∈ main.change, isCreate request = true ∧ request.key = k := by
  cases main with
  | preSend client request done getValue =>
      obtain ⟨hdone, hcreate, hkey⟩ := created_preSend.mp hk
      exact ⟨request, Main.mem_change.mpr ⟨rfl, Or.inl hcreate, by simp [Main.failed, hdone]⟩,
        hcreate, hkey⟩
  | _ => cases hk

theorem change_of_deleted {main : Main n C} {k : Key} (hk : main.deleted = some k) :
    ∃ request ∈ main.change, isDelete request = true ∧ request.key = k := by
  cases main with
  | preSend client request done getValue =>
      obtain ⟨hdone, hdelete, hkey⟩ := deleted_preSend.mp hk
      exact ⟨request, Main.mem_change.mpr ⟨rfl, Or.inr hdelete, by simp [Main.failed, hdone]⟩,
        hdelete, hkey⟩
  | _ => cases hk

theorem State.Named.index_of_change {hash : Key → Fin n} {srv : State n nb A C}
    (named : srv.Named hash) {request : Request n} (hmem : request ∈ srv.main.change) :
    request.index = hash request.key :=
  named.request request (Main.mem_change.mp hmem).1

theorem changing_of_created {hash : Key → Fin n} {srv : State n nb A C}
    (named : srv.Named hash) {k : Key} (hk : srv.main.created = some k) :
    srv.main.Changing (hash k) := by
  obtain ⟨request, hmem, _, rfl⟩ := change_of_created hk
  exact ⟨request, hmem, named.index_of_change hmem⟩

theorem changing_of_deleted {hash : Key → Fin n} {srv : State n nb A C}
    (named : srv.Named hash) {k : Key} (hk : srv.main.deleted = some k) :
    srv.main.Changing (hash k) := by
  obtain ⟨request, hmem, _, rfl⟩ := change_of_deleted hk
  exact ⟨request, hmem, named.index_of_change hmem⟩

/-- The name that is being put is at the entry that is being unpacked. -/
theorem unpacking_of_putting {hash : Key → Fin n} {srv : State n nb A C}
    (named : srv.Named hash) {k : Key} (hk : srv.listener.putting srv.inChargeMd = some k) :
    srv.listener.unpacking = some (hash k) := by
  cases hl : srv.listener with
  | transfer sender receiver =>
      rw [hl] at hk
      cases receiver with
      | put source entry mdNames left =>
          have hhead : (srv.inChargeMd entry).head? = some k := by simpa using hk
          have hmem : k ∈ srv.inChargeMd entry := List.mem_of_head? hhead
          simp [named.listed entry k hmem]
      | _ => simp at hk
  | _ => simp [hl] at hk

/-- The names in a packet that is being filled are at the entry that is being drained. -/
theorem draining_of_packed {hash : Key → Fin n} {srv : State n nb A C}
    (named : srv.Named hash) {k : Key} (hk : k ∈ srv.listener.packed) :
    srv.listener.draining = some (hash k) := by
  have hsome : ∃ e, srv.listener.draining = some e := by
    cases hl : srv.listener with
    | transfer sender receiver => cases sender <;> simp_all
    | _ => simp [hl] at hk
  obtain ⟨e, he⟩ := hsome
  rw [he, named.packed e he k hk]

theorem draining_of_popped {hash : Key → Fin n} {srv : State n nb A C}
    (named : srv.Named hash) {k : Key} (hk : srv.listener.popped = some k) :
    srv.listener.draining = some (hash k) := by
  have hsome : ∃ e, srv.listener.draining = some e := by
    cases hl : srv.listener with
    | transfer sender receiver => cases sender <;> simp_all
    | _ => simp [hl] at hk
  obtain ⟨e, he⟩ := hsome
  rw [he, named.popped e k he hk]

theorem unpacking_of_waiting {hash : Key → Fin n} {srv : State n nb A C}
    (named : srv.Named hash) {k : Key} (hk : k ∈ srv.listener.waiting) :
    srv.listener.unpacking = some (hash k) := by
  have hsome : ∃ e, srv.listener.unpacking = some e := by
    cases hl : srv.listener with
    | transfer sender receiver => cases receiver <;> simp_all
    | _ => simp [hl] at hk
  obtain ⟨e, he⟩ := hsome
  rw [he, named.waiting e he k hk]

theorem wire_of_wired {hash : Key → Fin n} {srv : State n nb A C} (named : srv.Named hash)
    {k : Key} (hk : k ∈ namesOf srv.wire) :
    ∃ p, srv.wire = some p ∧ p.2.entry = hash k ∧ k ∈ p.2.names := by
  cases hwire : srv.wire with
  | none => simp [hwire, namesOf] at hk
  | some p =>
      rw [hwire, namesOf] at hk
      exact ⟨p, rfl, (named.wired p hwire k hk).symm, hk⟩

/-- What has the entry of a key in hand, by the spot of the key. -/
def State.InHand (srv : State n nb A C) (e : Fin n) : Spot → Prop
  | .nowhere | .stored => True
  | .created | .deleted => srv.main.Changing e
  | .popped | .packed => srv.listener.draining = some e
  | .wired => ∃ p, srv.wire = some p ∧ p.2.entry = e
  | .waiting | .putting => srv.listener.unpacking = some e

theorem State.Has.inHand {hash : Key → Fin n} {srv : State n nb A C} {k : Key} {spot : Spot}
    (has : srv.Has (hash k) k spot) (named : srv.Named hash) :
    srv.InHand (hash k) spot := by
  cases spot with
  | nowhere => trivial
  | stored => trivial
  | created => exact changing_of_created named (has.created.mpr rfl)
  | deleted => exact changing_of_deleted named (has.deleted.mpr rfl)
  | popped => exact draining_of_popped named (has.popped.mpr rfl)
  | packed =>
      apply draining_of_packed named
      rw [← List.count_pos_iff, has.packed]
      exact Nat.one_pos
  | wired =>
      have hmem : k ∈ namesOf srv.wire := by
        rw [← List.count_pos_iff, has.wired]
        exact Nat.one_pos
      obtain ⟨p, hp, hentry, _⟩ := wire_of_wired named hmem
      exact ⟨p, hp, hentry⟩
  | waiting =>
      apply unpacking_of_waiting named
      rw [← List.count_pos_iff, has.waiting]
      exact Nat.one_pos
  | putting => exact unpacking_of_putting named (has.putting.mpr rfl)

/-! ## What a sender does not see -/

/-- No create and no delete that is between its steps is about the first name of the list;
none is for the entry at all if there are no names. -/
def State.Clear (srv : State n nb A C) (e : Fin n) : Prop :=
  match srv.inChargeMd e with
  | [] => ¬ srv.main.Changing e
  | mdName :: _ => ∀ request ∈ srv.main.change, request.key ≠ mdName

/-- A sender looks at a list, or takes a name out of it, only when it is clear. -/
def LooksAlone (srv : State n nb A C) : Label → Prop
  | .sender =>
      match srv.listener with
      | .transfer (.drain _ _ packet) _ => srv.Clear packet.entry
      | .transfer (.pop _ _ packet) _ => srv.Clear packet.entry
      | _ => True
  | _ => True

instance (main : Main n C) (e : Fin n) : Decidable (main.Changing e) :=
  inferInstanceAs (Decidable (∃ request ∈ main.change, request.index = e))

instance (srv : State n nb A C) (e : Fin n) : Decidable (srv.Clear e) :=
  match h : srv.inChargeMd e with
  | [] => decidable_of_iff (¬ srv.main.Changing e) (by simp only [State.Clear, h])
  | mdName :: _ =>
      decidable_of_iff (∀ request ∈ srv.main.change, request.key ≠ mdName)
        (by simp only [State.Clear, h])

instance (srv : State n nb A C) : (l : Label) → Decidable (LooksAlone srv l)
  | .sender =>
      match h : srv.listener with
      | .transfer (.drain _ _ packet) _ =>
          decidable_of_iff (srv.Clear packet.entry) (by simp only [LooksAlone, h])
      | .transfer (.pop _ _ packet) _ =>
          decidable_of_iff (srv.Clear packet.entry) (by simp only [LooksAlone, h])
      | .transfer (.next _) _ | .transfer (.del _ _ _ _) _
      | .transfer (.send _ _ _) _ | .transfer (.updateState _ _) _
      | .transfer (.resetEacl _ _) _ | .transfer (.recvAck _ _) _ | .transfer .finished _
      | .transfer .failed _ | .recv | .checkEpoch _ | .waitEpoch _ | .readSai | .sendEacl _
      | .updateMlt _ _ _ => isTrue (by simp only [LooksAlone, h])
  | .usr2 | .handler _ | .listener | .receiver | .main => isTrue trivial

end MeDiE.Server
