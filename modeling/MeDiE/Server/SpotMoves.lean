import MeDiE.Server.Spots

/-!
# From one spot to the next

A create takes a key from nowhere to its file and then to the list, a delete the other
way round; a sender takes it from the list into its packet, and a receiver from the
packet into the list.  Every other step leaves it where it is.
-/

namespace MeDiE.Server

open MeDiE.Storage
open MeDiE.Table

variable {n nb : Nat} {A C : Type}

/-- Where a step of the server takes the key `k`. -/
inductive Moved (srv : State n nb A C) (k : Key) : Spot → Spot → Prop
  | stay (spot : Spot) : Moved srv k spot spot
  | create : Moved srv k .nowhere .created
  | delete (client : C) (request : Request n) (hmain : srv.main = .storage client request)
      (hdelete : isDelete request = true) (hkey : request.key = k) :
      Moved srv k .stored .deleted
  | pop : Moved srv k .stored .popped
  | del : Moved srv k .popped .packed
  | send : Moved srv k .packed .wired
  | unpack : Moved srv k .waiting .putting
  | put : Moved srv k .putting .stored

/-- The storage operations. -/
inductive Stored (store : Store) (request : Request n) : Store → Bool → Prop
  | failed : Stored store request store false
  | read (hcreate : isCreate request = false) (hdelete : isDelete request = false) :
      Stored store request store true
  | created (data : Data) (hcreate : isCreate request = true)
      (hdelete : isDelete request = false) (hstore : store request.key = none) :
      Stored store request (Function.update store request.key (some data)) true
  | updated (data : Data) (hcreate : isCreate request = false)
      (hdelete : isDelete request = false) (hstore : store request.key ≠ none) :
      Stored store request (Function.update store request.key (some data)) true
  | deleted (hcreate : isCreate request = false) (hdelete : isDelete request = true)
      (hstore : store request.key ≠ none) :
      Stored store request (Function.update store request.key none) true

theorem stored_of_storageOperation {store store' : Store} {request : Request n}
    {done : Bool} {getValue : Option Data}
    (h : storageOperation store request = .returned store' done getValue) :
    Stored store request store' done := by
  unfold storageOperation at h
  split at h
  · rename_i data htype
    have hcreate : isCreate request = true := by simp [isCreate, htype]
    have hdelete : isDelete request = false := by simp [isDelete, htype]
    split at h
    · cases h
      exact Stored.failed
    · cases h
      obtain ⟨hstore, rfl⟩ := genericPut_eq_some.mp ‹_›
      exact Stored.created data hcreate hdelete hstore
  · rename_i data htype
    have hcreate : isCreate request = false := by simp [isCreate, htype]
    have hdelete : isDelete request = false := by simp [isDelete, htype]
    split at h
    · cases h
      exact Stored.failed
    · cases h
      obtain ⟨hstore, rfl⟩ := genericUpdate_eq_some.mp ‹_›
      exact Stored.updated data hcreate hdelete hstore
  · rename_i htype
    have hcreate : isCreate request = false := by simp [isCreate, htype]
    have hdelete : isDelete request = true := by simp [isDelete, htype]
    split at h
    · cases h
      exact Stored.failed
    · cases h
      obtain ⟨hstore, rfl⟩ := genericDel_eq_some.mp ‹_›
      exact Stored.deleted hcreate hdelete hstore
  · rename_i htype
    split at h
    · cases h
    · cases h
      exact Stored.read (by simp [isCreate, htype]) (by simp [isDelete, htype])
    · cases h

/-- Only the listener goes on, and has the same names in hand. -/
theorem State.Has.setListener {srv srv' : State n nb A C} {e : Fin n} {k : Key} {spot : Spot}
    (has : srv.Has e k spot) (hlisted : srv'.inChargeMd = srv.inChargeMd)
    (hstore : srv'.store = srv.store) (hmain : srv'.main = srv.main)
    (hwire : srv'.wire = srv.wire)
    (hpopped : srv'.listener.popped = srv.listener.popped)
    (hpacked : srv'.listener.packed = srv.listener.packed)
    (hwaiting : srv'.listener.waiting = srv.listener.waiting)
    (hputting : srv'.listener.putting srv.inChargeMd = srv.listener.putting srv.inChargeMd) :
    srv'.Has e k spot where
  listed := hlisted ▸ has.listed
  file := hstore ▸ has.file
  created := hmain ▸ has.created
  deleted := hmain ▸ has.deleted
  popped := hpopped ▸ has.popped
  packed := hpacked ▸ has.packed
  wired := hwire ▸ has.wired
  waiting := hwaiting ▸ has.waiting
  putting := by
    rw [hlisted, hputting]
    exact has.putting

/-- The key of a request is in no packet. -/
theorem State.Has.of_change {hash : Key → Fin n} {srv : State n nb A C}
    (named : srv.Named hash) (apart : srv.Apart) {request : Request n} {spot : Spot}
    (hmem : request ∈ srv.main.change)
    (has : srv.Has (hash request.key) request.key spot) :
    spot = .nowhere ∨ spot = .created ∨ spot = .stored ∨ spot = .deleted := by
  have hindex := named.index_of_change hmem
  have hchanging : srv.main.Changing (hash request.key) := ⟨request, hmem, hindex⟩
  have hhand := has.inHand named
  cases spot with
  | popped =>
      rw [← hindex] at hhand
      exact absurd (has.popped.mpr rfl) (apart.sender request hmem hhand).2
  | packed =>
      rw [← hindex] at hhand
      have hcount := has.packed
      rw [List.count_eq_zero_of_not_mem (apart.sender request hmem hhand).1] at hcount
      cases hcount
  | wired =>
      obtain ⟨p, hwire, hentry⟩ := hhand
      exact absurd (hentry ▸ hchanging) (apart.wire p hwire)
  | waiting => exact absurd hchanging (apart.receiver _ hhand)
  | putting => exact absurd hchanging (apart.receiver _ hhand)
  | _ => simp

/-- The spots in which no transfer has the key in hand. -/
def Spot.Settled : Spot → Prop
  | .nowhere | .created | .stored | .deleted => True
  | .popped | .packed | .wired | .waiting | .putting => False

theorem Spot.Settled.ne {spot : Spot} (h : spot.Settled) :
    spot ≠ .popped ∧ spot ≠ .packed ∧ spot ≠ .wired ∧ spot ≠ .waiting ∧ spot ≠ .putting := by
  refine ⟨?_, ?_, ?_, ?_, ?_⟩ <;> rintro rfl <;> exact h

/-- A request moves the key between spots in which no transfer has it in hand. -/
theorem State.Has.request {srv : State n nb A C} {e : Fin n} {k : Key} {spot : Spot}
    (has : srv.Has e k spot) (spot' : Spot) (hspot : spot.Settled) (hspot' : spot'.Settled)
    {inChargeMd : Fin n → List Key} {store : Store} {main : Main n C}
    (hlisted : (inChargeMd e).count k = if spot' = .stored ∨ spot' = .deleted then 1 else 0)
    (hfile : store k ≠ none ↔ spot' = .stored ∨ spot' = .created)
    (hcreated : main.created = some k ↔ spot' = .created)
    (hdeleted : main.deleted = some k ↔ spot' = .deleted)
    (hputting : srv.listener.putting inChargeMd = srv.listener.putting srv.inChargeMd) :
    State.Has { srv with inChargeMd := inChargeMd, store := store, main := main } e k spot' := by
  obtain ⟨hpopped, hpacked, hwired, hwaiting, hput⟩ := hspot.ne
  obtain ⟨hpopped', hpacked', hwired', hwaiting', hput'⟩ := hspot'.ne
  constructor
  · simpa [hput'] using hlisted
  · simpa [hpopped'] using hfile
  · exact hcreated
  · exact hdeleted
  · exact has.popped.trans (iff_of_false hpopped hpopped')
  · exact has.packed.trans (by rw [if_neg hpacked, if_neg hpacked'])
  · exact has.wired.trans (by rw [if_neg hwired, if_neg hwired'])
  · exact has.waiting.trans (by rw [if_neg hwaiting, if_neg hwaiting'])
  · rw [hputting]
    exact has.putting.trans (iff_of_false hput hput')

/-- A storage operation that has nothing to do with the key. -/
theorem State.Has.setMain {srv : State n nb A C} {e : Fin n} {k : Key} {spot : Spot}
    (has : srv.Has e k spot) (hcreated : spot ≠ .created) (hdeleted : spot ≠ .deleted)
    {store : Store} (hstore : store k ≠ none ↔ srv.store k ≠ none) {main : Main n C}
    (hmain : main.created ≠ some k) (hmain' : main.deleted ≠ some k) :
    State.Has { srv with store := store, main := main } e k spot where
  listed := has.listed
  file := hstore.trans has.file
  created := iff_of_false hmain hcreated
  deleted := iff_of_false hmain' hdeleted
  popped := has.popped
  packed := has.packed
  wired := has.wired
  waiting := has.waiting
  putting := has.putting

/-- The storage operation of a request. -/
theorem State.Has.storage {hash : Key → Fin n} {srv : State n nb A C}
    (named : srv.Named hash) (apart : srv.Apart) {k : Key} {spot : Spot}
    (has : srv.Has (hash k) k spot) {client : C} {request : Request n} {store : Store}
    {done : Bool} (hmain : srv.main = .storage client request)
    (h : Stored srv.store request store done) (getValue : Option Data) :
    ∃ spot', State.Has
        { srv with
          store := store
          main := .preSend client request done getValue } (hash k) k spot' ∧
      Moved srv k spot spot' := by
  have hcreated : spot ≠ .created := by
    intro hspot
    have hk := has.created.mpr hspot
    rw [hmain] at hk
    cases hk
  have hdeleted : spot ≠ .deleted := by
    intro hspot
    have hk := has.deleted.mpr hspot
    rw [hmain] at hk
    cases hk
  -- a create or a delete of the key
  have hchanging : isCreate request = true ∨ isDelete request = true → request.key = k →
      spot = .nowhere ∨ spot = .stored := by
    rintro hchange rfl
    have hmem : request ∈ srv.main.change :=
      Main.mem_change.mpr ⟨by rw [hmain]; rfl, hchange, by rw [hmain]; rfl⟩
    rcases has.of_change named apart hmem with h | h | h | h
    · exact Or.inl h
    · exact absurd h hcreated
    · exact Or.inr h
    · exact absurd h hdeleted
  cases h with
  | failed =>
      refine ⟨spot, has.setMain hcreated hdeleted Iff.rfl ?_ ?_, Moved.stay spot⟩
      · simp [Main.created]
      · simp [Main.deleted]
  | read hcreate hdelete =>
      refine ⟨spot, has.setMain hcreated hdeleted Iff.rfl ?_ ?_, Moved.stay spot⟩
      · simp [Main.created, hcreate]
      · simp [Main.deleted, hdelete]
  | created data hcreate hdelete hstore =>
      by_cases hkey : request.key = k
      · subst hkey
        have hspot : spot = .nowhere := by
          rcases hchanging (Or.inl hcreate) rfl with h | h
          · exact h
          · exact absurd (has.file.mpr (Or.inl h)) (not_not.mpr hstore)
        subst hspot
        refine ⟨_, has.request .created trivial trivial ?_ ?_ ?_ ?_ rfl, Moved.create⟩
        · exact has.listed.trans (by decide)
        · simp
        · simp [Main.created, hcreate]
        · simp [Main.deleted, hdelete]
      · refine ⟨spot, has.setMain hcreated hdeleted ?_ ?_ ?_, Moved.stay spot⟩
        · rw [Function.update_of_ne (Ne.symm hkey)]
        · simp [Main.created, hcreate, hkey]
        · simp [Main.deleted, hdelete]
  | updated data hcreate hdelete hstore =>
      refine ⟨spot, has.setMain hcreated hdeleted ?_ ?_ ?_, Moved.stay spot⟩
      · by_cases hkey : request.key = k
        · subst hkey
          simpa using hstore
        · rw [Function.update_of_ne (Ne.symm hkey)]
      · simp [Main.created, hcreate]
      · simp [Main.deleted, hdelete]
  | deleted hcreate hdelete hstore =>
      by_cases hkey : request.key = k
      · subst hkey
        have hspot : spot = .stored := by
          rcases hchanging (Or.inr hdelete) rfl with h | h
          · have hfile := has.file.mp hstore
            simp [h] at hfile
          · exact h
        subst hspot
        refine ⟨_, has.request .deleted trivial trivial ?_ ?_ ?_ ?_ rfl,
          Moved.delete client request hmain hdelete rfl⟩
        · exact has.listed.trans (by decide)
        · simp
        · simp [Main.created, hcreate]
        · simp [Main.deleted, hdelete]
      · refine ⟨spot, has.setMain hcreated hdeleted ?_ ?_ ?_, Moved.stay spot⟩
        · rw [Function.update_of_ne (Ne.symm hkey)]
        · simp [Main.created, hcreate]
        · simp [Main.deleted, hdelete, hkey]

/-! ## The sender -/

/-- Another list changes than the one of the entry that is being unpacked. -/
theorem putting_update (receiver : LoadReceiver n nb) {inChargeMd : Fin n → List Key}
    {e : Fin n} (head : List Key) (he : receiver.unpacking ≠ some e) :
    receiver.putting (Function.update inChargeMd e head) = receiver.putting inChargeMd := by
  cases receiver with
  | put source entry mdNames left =>
      have hne : entry ≠ e := fun heq => he (by rw [← heq]; rfl)
      simp [hne]
  | _ => rfl

theorem State.Has.pop {hash : Key → Fin n} {srv : State n nb A C}
    (named : srv.Named hash) (apart : srv.Apart) {k : Key} {spot : Spot}
    (has : srv.Has (hash k) k spot) {server : Fin nb} {toSend : List (Fin nb × Fin n)}
    {packet : Packing n} {receiver : LoadReceiver n nb} {mdName : Key} {head : List Key}
    (hl : srv.listener = .transfer (.pop server toSend packet) receiver)
    (hpop : srv.inChargeMd packet.entry = mdName :: head)
    (hclear : ∀ request ∈ srv.main.change, request.key ≠ mdName) :
    ∃ spot', State.Has
        { srv with
          inChargeMd := Function.update srv.inChargeMd packet.entry head
          listener := .transfer (.del server toSend packet mdName) receiver }
        (hash k) k spot' ∧ Moved srv k spot spot' := by
  have hunpacking : receiver.unpacking ≠ some packet.entry := by
    have hthreads := apart.threads packet.entry (by rw [hl]; rfl)
    rwa [hl] at hthreads
  have hputting : receiver.putting (Function.update srv.inChargeMd packet.entry head) = _ :=
    putting_update receiver head hunpacking
  have hname : hash mdName = packet.entry := named.listed packet.entry mdName (by simp [hpop])
  have hpopped : spot ≠ .popped := by
    intro hspot
    have hk := has.popped.mpr hspot
    rw [hl] at hk
    cases hk
  by_cases hkey : mdName = k
  · subst hkey
    have hlisted := has.listed
    rw [hname, hpop, List.count_cons_self] at hlisted
    have hspot : spot = .stored := by
      have hlist : spot = .stored ∨ spot = .deleted ∨ spot = .putting := by
        by_contra hnot
        rw [if_neg hnot] at hlisted
        cases hlisted
      rcases hlist with h | h | h
      · exact h
      · obtain ⟨request, hmem, _, hkey⟩ := change_of_deleted (has.deleted.mpr h)
        exact absurd hkey (hclear request hmem)
      · have hat := unpacking_of_putting named (has.putting.mpr h)
        rw [hl, hname] at hat
        exact absurd hat hunpacking
    subst hspot
    refine ⟨.popped, ⟨?_, ?_, ?_, ?_, ?_, ?_, ?_, ?_, ?_⟩, Moved.pop⟩
    · simpa [hname] using hlisted
    · exact has.file.trans (by decide)
    · exact has.created.trans (by decide)
    · exact has.deleted.trans (by decide)
    · simp
    · simpa [hl] using has.packed
    · exact has.wired.trans (by decide)
    · simpa [hl] using has.waiting
    · have hold := has.putting
      rw [hl] at hold
      show receiver.putting (Function.update srv.inChargeMd packet.entry head) = some mdName ↔ _
      rw [hputting]
      simpa using hold
  · refine ⟨spot, ⟨?_, has.file, has.created, has.deleted, ?_, ?_, has.wired, ?_, ?_⟩,
      Moved.stay spot⟩
    · by_cases he : hash k = packet.entry
      · have hlisted := has.listed
        rw [he, hpop, List.count_cons_of_ne hkey] at hlisted
        simpa [he] using hlisted
      · simpa [he] using has.listed
    · simpa [hkey] using hpopped
    · simpa [hl] using has.packed
    · simpa [hl] using has.waiting
    · have hold := has.putting
      rw [hl] at hold
      show receiver.putting (Function.update srv.inChargeMd packet.entry head) = some k ↔ _
      rw [hputting]
      exact hold

theorem State.Has.del {srv : State n nb A C} {e : Fin n} {k : Key} {spot : Spot}
    (has : srv.Has e k spot) {server : Fin nb} {toSend : List (Fin nb × Fin n)}
    {packet : Packing n} {receiver : LoadReceiver n nb} {mdName : Key}
    (hl : srv.listener = .transfer (.del server toSend packet mdName) receiver) :
    ∃ spot', State.Has
        { srv with
          store := Function.update srv.store mdName none
          listener := .transfer (.drain server toSend (packet.append mdName)) receiver }
        e k spot' ∧ Moved srv k spot spot' := by
  have hpopped := has.popped
  have hpacked := has.packed
  rw [hl] at hpopped hpacked
  by_cases hkey : mdName = k
  · subst hkey
    have hspot : spot = .popped := hpopped.mp rfl
    subst hspot
    refine ⟨.packed, ⟨?_, ?_, ?_, ?_, ?_, ?_, ?_, ?_, ?_⟩, Moved.del⟩
    · exact has.listed.trans (by decide)
    · simp
    · exact has.created.trans (by decide)
    · exact has.deleted.trans (by decide)
    · simp
    · simpa using hpacked
    · exact has.wired.trans (by decide)
    · simpa [hl] using has.waiting
    · simpa [hl] using has.putting
  · have hspot : spot ≠ .popped := fun hspot => hkey (Option.some.inj (hpopped.mpr hspot))
    refine ⟨spot, ⟨has.listed, ?_, has.created, has.deleted, ?_, ?_, has.wired, ?_, ?_⟩,
      Moved.stay spot⟩
    · simpa [Ne.symm hkey] using has.file
    · simpa using hspot
    · simpa [List.count_singleton, hkey] using hpacked
    · simpa [hl] using has.waiting
    · simpa [hl] using has.putting

theorem State.Has.send {srv : State n nb A C} (apart : srv.Apart) {e : Fin n} {k : Key}
    {spot : Spot} (has : srv.Has e k spot) {server : Fin nb}
    {toSend : List (Fin nb × Fin n)} {packet : Packing n} {receiver : LoadReceiver n nb}
    (hl : srv.listener = .transfer (.send server toSend packet) receiver) :
    ∃ spot', State.Has
        { srv with
          wire := some (server, packet.finish)
          listener := .transfer (.updateState packet.entry toSend) receiver }
        e k spot' ∧ Moved srv k spot spot' := by
  have hpopped := has.popped
  have hpacked := has.packed
  rw [hl] at hpopped hpacked
  have hwired : spot ≠ .wired := by
    intro hspot
    have hcount := has.wired
    rw [apart.free packet.entry (by rw [hl]; rfl), if_pos hspot] at hcount
    cases hcount
  by_cases hspot : spot = .packed
  · subst hspot
    refine ⟨.wired, ⟨?_, ?_, ?_, ?_, ?_, ?_, ?_, ?_, ?_⟩, Moved.send⟩
    · exact has.listed.trans (by decide)
    · exact has.file.trans (by decide)
    · exact has.created.trans (by decide)
    · exact has.deleted.trans (by decide)
    · simp
    · simp
    · simpa [namesOf] using hpacked
    · simpa [hl] using has.waiting
    · simpa [hl] using has.putting
  · have hpacked' : (strtok packet.mdNames).count k = 0 := by
      rw [if_neg hspot] at hpacked
      exact hpacked
    refine ⟨spot, ⟨has.listed, has.file, has.created, has.deleted, ?_, ?_, ?_, ?_, ?_⟩,
      Moved.stay spot⟩
    · simpa using hpopped
    · simp [hspot]
    · simpa [namesOf, hwired] using hpacked'
    · simpa [hl] using has.waiting
    · simpa [hl] using has.putting

/-! ## The receiver -/

theorem State.Has.unpackNext {hash : Key → Fin n} {srv : State n nb A C}
    (named : srv.Named hash) {k : Key} {spot : Spot} (has : srv.Has (hash k) k spot)
    {sender : LoadSender n nb} {source : Fin nb} {entry : Fin n} {mdName : Key}
    {mdNames : List Key} {left : Nat}
    (hl : srv.listener = .transfer sender (.unpack source entry (mdName :: mdNames) left)) :
    ∃ spot', State.Has
        { srv with
          inChargeMd := Function.update srv.inChargeMd entry
            (mdName :: srv.inChargeMd entry)
          listener := .transfer sender (.put source entry mdNames left) }
        (hash k) k spot' ∧ Moved srv k spot spot' := by
  have hwaiting := has.waiting
  rw [hl] at hwaiting
  have hname : hash mdName = entry := named.waiting entry (by rw [hl]; rfl) mdName (by simp [hl])
  by_cases hkey : mdName = k
  · subst hkey
    have hspot : spot = .waiting := by
      by_contra hnot
      rw [if_neg hnot] at hwaiting
      simp at hwaiting
    subst hspot
    refine ⟨.putting, ⟨?_, ?_, ?_, ?_, ?_, ?_, ?_, ?_, ?_⟩, Moved.unpack⟩
    · simpa [hname] using has.listed
    · exact has.file.trans (by decide)
    · exact has.created.trans (by decide)
    · exact has.deleted.trans (by decide)
    · simpa [hl] using has.popped
    · simpa [hl] using has.packed
    · exact has.wired.trans (by decide)
    · simpa using hwaiting
    · simp
  · have hspot : spot ≠ .putting := by
      intro hspot
      have hputting := has.putting.mpr hspot
      rw [hl] at hputting
      cases hputting
    refine ⟨spot, ⟨?_, has.file, has.created, has.deleted, ?_, ?_, has.wired, ?_, ?_⟩,
      Moved.stay spot⟩
    · by_cases he : hash k = entry
      · have hlisted := has.listed
        simpa [he, List.count_cons_of_ne hkey] using hlisted
      · simpa [he] using has.listed
    · simpa [hl] using has.popped
    · simpa [hl] using has.packed
    · simpa [List.count_cons_of_ne hkey] using hwaiting
    · simpa [hkey] using hspot

theorem State.Has.put {srv : State n nb A C} {e : Fin n} {k : Key} {spot : Spot}
    (has : srv.Has e k spot) {sender : LoadSender n nb} {source : Fin nb} {entry : Fin n}
    {mdNames : List Key} {left : Nat} {mdName : Key} {head : List Key}
    (hl : srv.listener = .transfer sender (.put source entry mdNames left))
    (hhead : srv.inChargeMd entry = mdName :: head) (data : Data) :
    ∃ spot', State.Has
        { srv with
          store := Function.update srv.store mdName (some data)
          listener := .transfer sender (.unpack source entry mdNames left) }
        e k spot' ∧ Moved srv k spot spot' := by
  have hputting := has.putting
  rw [hl] at hputting
  have hhead' : (srv.inChargeMd entry).head? = some mdName := by simp [hhead]
  by_cases hkey : mdName = k
  · subst hkey
    have hspot : spot = .putting := hputting.mp hhead'
    subst hspot
    refine ⟨.stored, ⟨?_, ?_, ?_, ?_, ?_, ?_, ?_, ?_, ?_⟩, Moved.put⟩
    · exact has.listed.trans (by decide)
    · simp
    · exact has.created.trans (by decide)
    · exact has.deleted.trans (by decide)
    · simpa [hl] using has.popped
    · simpa [hl] using has.packed
    · exact has.wired.trans (by decide)
    · simpa [hl] using has.waiting
    · simp
  · have hspot : spot ≠ .putting := by
      intro hspot
      have hk := hputting.mpr hspot
      exact hkey (Option.some.inj (hhead'.symm.trans hk))
    refine ⟨spot, ⟨has.listed, ?_, has.created, has.deleted, ?_, ?_, has.wired, ?_, ?_⟩,
      Moved.stay spot⟩
    · simpa [Ne.symm hkey] using has.file
    · simpa [hl] using has.popped
    · simpa [hl] using has.packed
    · simpa [hl] using has.waiting
    · simpa using hspot

/-! ## A step of a server -/

section Steps

variable [Eacl A n] {hash : Key → Fin n}

/-- A key stays where it is or goes to the next spot, unless a thread of a transfer
follows a null pointer. -/
theorem State.Has.step {s : Fin nb} {srv srv' : State n nb A C} {l : Label}
    (named : srv.Named hash) (apart : srv.Apart) (sound : srv.Sound)
    (halone : LooksAlone srv l) (hnull : NullPointer srv l → l = .main) {k : Key} {spot : Spot}
    (has : srv.Has (hash k) k spot) (h : Step s srv l srv') :
    ∃ spot', srv'.Has (hash k) k spot' ∧ Moved srv k spot spot' := by
  cases h with
  | pop server toSend packet receiver mdName head hl hpop =>
      have hclear : srv.Clear packet.entry := by simpa only [LooksAlone, hl] using halone
      rw [State.Clear, hpop] at hclear
      exact has.pop named apart hl hpop hclear
  | del server toSend packet receiver mdName hl hstore => exact has.del hl
  | delFailed server toSend packet receiver mdName hl hstore =>
      exact absurd hstore (sound.popped mdName (by rw [hl]; rfl))
  | send server toSend packet receiver hl => exact has.send apart hl
  | unpackNext sender source entry mdName mdNames left hl => exact has.unpackNext named hl
  | put sender source entry mdNames left mdName head hl hhead hstore =>
      exact has.put hl hhead aWord
  | putFailed sender source entry mdNames left mdName head hl hhead hstore =>
      have hputting : srv.listener.putting srv.inChargeMd = some mdName := by simp [hl, hhead]
      exact absurd (sound.putting mdName hputting) hstore
  | incrAccess client request hmain =>
      refine ⟨spot, ⟨has.listed, has.file, ?_, ?_, has.popped, has.packed, has.wired,
        has.waiting, has.putting⟩, Moved.stay spot⟩
      · have hcreated := has.created
        rwa [hmain] at hcreated
      · have hdeleted := has.deleted
        rwa [hmain] at hdeleted
  | storage client request store done getValue hmain hstore =>
      exact has.storage named apart hmain (stored_of_storageOperation hstore) getValue
  | usr2 | calculateSai | setEaclEpoch | resetAccess | threshold | noRebalancing
  | askRebalancing =>
      exact ⟨spot, ⟨has.listed, has.file, has.created, has.deleted, has.popped, has.packed,
        has.wired, has.waiting, has.putting⟩, Moved.stay spot⟩
  | crash l hcrash =>
      cases hcrash with
      | getValue client request hmain hstore =>
          refine ⟨spot, ⟨has.listed, has.file, ?_, ?_, has.popped, has.packed, has.wired,
            has.waiting, has.putting⟩, Moved.stay spot⟩
          · have hcreated := has.created
            rwa [hmain] at hcreated
          · have hdeleted := has.deleted
            rwa [hmain] at hdeleted
      | pop server toSend packet receiver hl hnil =>
          cases hnull (.pop server toSend packet receiver hl hnil)
      | put sender source entry mdNames left hl hnil =>
          cases hnull (.put sender source entry mdNames left hl hnil)
  | join sender receiver hl hsender hreceiver =>
      refine ⟨spot, has.setListener rfl rfl rfl rfl ?_ ?_ ?_ ?_, Moved.stay spot⟩
      · cases sender <;> simp_all [LoadSender.exited]
      · cases sender <;> simp_all [LoadSender.exited]
      · cases receiver <;> simp_all [LoadReceiver.exited]
      · cases receiver <;> simp_all [LoadReceiver.exited]
  | _ =>
      refine ⟨spot, has.setListener rfl rfl rfl rfl ?_ ?_ ?_ ?_, Moved.stay spot⟩
      all_goals
        rw [‹srv.listener = _›]
        rfl

end Steps

/-! ## Other parties -/

/-- The packet is taken off the wire. -/
theorem State.Has.taken {srv : State n nb A C} {e : Fin n} {k : Key} {spot : Spot}
    (has : srv.Has e k spot) :
    ∃ spot', State.Has { srv with wire := none } e k spot' ∧
      (spot = .wired ∧ spot' = .nowhere ∨ spot ≠ .wired ∧ spot' = spot) := by
  by_cases hspot : spot = .wired
  · subst hspot
    refine ⟨.nowhere, ⟨?_, ?_, ?_, ?_, ?_, ?_, ?_, ?_, ?_⟩, Or.inl ⟨rfl, rfl⟩⟩
    · exact has.listed.trans (by decide)
    · exact has.file.trans (by decide)
    · exact has.created.trans (by decide)
    · exact has.deleted.trans (by decide)
    · exact has.popped.trans (by decide)
    · exact has.packed.trans (by decide)
    · simp [namesOf]
    · exact has.waiting.trans (by decide)
    · exact has.putting.trans (by decide)
  · refine ⟨spot, ⟨has.listed, has.file, has.created, has.deleted, has.popped, has.packed,
      ?_, has.waiting, has.putting⟩, Or.inr ⟨hspot, rfl⟩⟩
    simp [namesOf, hspot]

/-- The receiver takes a packet. -/
theorem State.Has.take {srv : State n nb A C} {e : Fin n} {k : Key} {spot : Spot}
    (has : srv.Has e k spot) {sender : LoadSender n nb} {left : Nat}
    (hl : srv.listener = .transfer sender (.recv (left + 1))) (source : Fin nb)
    (packet : Packet n)
    (hnowhere : k ∈ packet.names → spot = .nowhere) (hone : packet.names.count k ≤ 1) :
    ∃ spot', State.Has
        { srv with
          listener := .transfer sender (.unpack source packet.entry packet.names left) }
        e k spot' ∧
      (k ∈ packet.names ∧ spot' = .waiting ∨ k ∉ packet.names ∧ spot' = spot) := by
  have hwaiting := has.waiting
  have hputting := has.putting
  rw [hl] at hwaiting hputting
  by_cases hmem : k ∈ packet.names
  · have hcount : packet.names.count k = 1 := by
      have hpos := List.count_pos_iff.mpr hmem
      omega
    have hspot := hnowhere hmem
    subst hspot
    refine ⟨.waiting, ⟨?_, ?_, ?_, ?_, ?_, ?_, ?_, ?_, ?_⟩, Or.inl ⟨hmem, rfl⟩⟩
    · exact has.listed.trans (by decide)
    · exact has.file.trans (by decide)
    · exact has.created.trans (by decide)
    · exact has.deleted.trans (by decide)
    · simpa [hl] using has.popped
    · simpa [hl] using has.packed
    · exact has.wired.trans (by decide)
    · simpa using hcount
    · simp
  · refine ⟨spot, ⟨has.listed, has.file, has.created, has.deleted, ?_, ?_, has.wired, ?_, ?_⟩,
      Or.inr ⟨hmem, rfl⟩⟩
    · simpa [hl] using has.popped
    · simpa [hl] using has.packed
    · have hnot : spot ≠ .waiting := by
        intro hspot
        rw [if_pos hspot] at hwaiting
        cases hwaiting
      rw [if_neg hnot]
      exact List.count_eq_zero_of_not_mem hmem
    · simpa using hputting

theorem State.Has.accept {srv : State n nb A C} {e : Fin n} {k : Key} {spot : Spot}
    (has : srv.Has e k spot) (hmain : srv.main = .recv) (client : C) (request : Request n) :
    State.Has { srv with main := .incrAccess client request } e k spot := by
  refine ⟨has.listed, has.file, ?_, ?_, has.popped, has.packed, has.wired, has.waiting,
    has.putting⟩
  · have hcreated := has.created
    rwa [hmain] at hcreated
  · have hdeleted := has.deleted
    rwa [hmain] at hdeleted

/-- What an answer does to the list of names. -/
theorem count_distributionPreSend {head : List Key} {request : Request n} {done : Bool}
    {k : Key} (hk : done = true → isCreate request = true ∨ isDelete request = true →
      request.key ≠ k) :
    (distributionPreSend head request done).1.count k = head.count k := by
  unfold distributionPreSend
  split
  · rename_i hdone
    split
    · rename_i data htype
      have hne := hk hdone (Or.inl (by simp [isCreate, htype]))
      exact List.count_cons_of_ne hne
    · rename_i htype
      have hne := hk hdone (Or.inr (by simp [isDelete, htype]))
      rw [mdEntrySearchMdName_eq]
      split
      · rfl
      · rename_i head' hsearch
        split at hsearch
        · cases hsearch
          exact List.count_erase_of_ne (Ne.symm hne)
        · cases hsearch
    · rfl
    · rfl
  · rfl

theorem Listener.putting_update (listener : Listener n nb) {inChargeMd : Fin n → List Key}
    {e : Fin n} (head : List Key) (he : listener.unpacking ≠ some e) :
    listener.putting (Function.update inChargeMd e head) = listener.putting inChargeMd := by
  cases listener with
  | transfer sender receiver => exact MeDiE.Server.putting_update receiver head he
  | _ => rfl

/-- The answer to a request that has failed, or is no create and no delete, changes no
list. -/
theorem distributionPreSend_of_not_changing {client : C} {request : Request n} {done : Bool}
    {getValue : Option Data} {head : List Key}
    (hnot : ¬ (Main.preSend client request done getValue).Changing request.index) :
    (distributionPreSend head request done).1 = head := by
  cases done with
  | false => rfl
  | true =>
      have hchange : ¬ (isCreate request = true ∨ isDelete request = true) := fun hchange =>
        hnot ⟨request, Main.mem_change.mpr ⟨rfl, hchange, rfl⟩, rfl⟩
      unfold distributionPreSend
      cases htype : request.reqType <;> simp_all [isCreate, isDelete]

/-- An answer changes no list that is being unpacked. -/
theorem State.Apart.putting_answer {srv : State n nb A C} (apart : srv.Apart) {client : C}
    {request : Request n} {done : Bool} {getValue : Option Data}
    (hmain : srv.main = .preSend client request done getValue) :
    srv.listener.putting (Function.update srv.inChargeMd request.index
        (distributionPreSend (srv.inChargeMd request.index) request done).1) =
      srv.listener.putting srv.inChargeMd := by
  by_cases hchanging : srv.main.Changing request.index
  · apply Listener.putting_update
    exact fun hunpacking => apart.receiver _ hunpacking hchanging
  · rw [hmain] at hchanging
    rw [distributionPreSend_of_not_changing hchanging, Function.update_eq_self]

/-- The list of names is brought up to date. -/
theorem State.Has.answer {hash : Key → Fin n} {srv : State n nb A C}
    (named : srv.Named hash) (apart : srv.Apart) {k : Key} {spot : Spot}
    (has : srv.Has (hash k) k spot) {client : C} {request : Request n} {done : Bool}
    {getValue : Option Data} (hmain : srv.main = .preSend client request done getValue) :
    ∃ spot', State.Has
        ({ srv with
          inChargeMd := Function.update srv.inChargeMd request.index
            (distributionPreSend (srv.inChargeMd request.index) request done).1
          main := .recv } : State n nb A C) (hash k) k spot' ∧
      (spot = .created ∧ spot' = .stored ∨ spot = .deleted ∧ spot' = .nowhere ∨
        spot ≠ .created ∧ spot ≠ .deleted ∧ spot' = spot) := by
  have hindex : request.index = hash request.key := named.request request (by rw [hmain]; rfl)
  have hputting := apart.putting_answer hmain
  have hcreated := has.created
  have hdeleted := has.deleted
  rw [hmain, created_preSend] at hcreated
  rw [hmain, deleted_preSend] at hdeleted
  by_cases hc : spot = .created
  · subst hc
    obtain ⟨rfl, hcreate, rfl⟩ := hcreated.mpr rfl
    have hlist : (distributionPreSend (srv.inChargeMd request.index) request true).1 =
        request.key :: srv.inChargeMd request.index := by
      cases htype : request.reqType <;>
        simp_all [isCreate, distributionPreSend, mdEntryInsert]
    rw [hindex] at hlist
    refine ⟨_, has.request .stored trivial trivial ?_ ?_ ?_ ?_ hputting, Or.inl ⟨rfl, rfl⟩⟩
    · simpa [hlist, hindex] using has.listed
    · exact has.file.trans (by decide)
    · simp [Main.created]
    · simp [Main.deleted]
  · by_cases hd : spot = .deleted
    · subst hd
      obtain ⟨rfl, hdelete, rfl⟩ := hdeleted.mpr rfl
      have hlist : (distributionPreSend (srv.inChargeMd request.index) request true).1 =
          (srv.inChargeMd request.index).erase request.key := by
        have hmem : request.key ∈ srv.inChargeMd request.index := by
          rw [← List.count_pos_iff, hindex, has.listed]
          simp
        cases htype : request.reqType <;>
          simp_all [isDelete, distributionPreSend, mdEntrySearchMdName_eq]
      rw [hindex] at hlist
      refine ⟨_, has.request .nowhere trivial trivial ?_ ?_ ?_ ?_ hputting,
        Or.inr (Or.inl ⟨rfl, rfl⟩)⟩
      · have hlisted := has.listed
        simp [hlist, hindex, hlisted]
      · exact has.file.trans (by decide)
      · simp [Main.created]
      · simp [Main.deleted]
    · refine ⟨spot, ⟨?_, has.file, ?_, ?_, has.popped, has.packed, has.wired, has.waiting, ?_⟩,
        Or.inr (Or.inr ⟨hc, hd, rfl⟩)⟩
      · have hne : done = true → isCreate request = true ∨ isDelete request = true →
            request.key ≠ k := by
          intro hdone hchange hkey
          rcases hchange with hcreate | hdelete
          · exact hc (hcreated.mp ⟨hdone, hcreate, hkey⟩)
          · exact hd (hdeleted.mp ⟨hdone, hdelete, hkey⟩)
        by_cases he : hash k = request.index
        · have hcount : (distributionPreSend (srv.inChargeMd request.index) request _).1.count k
              = _ := count_distributionPreSend hne
          simpa [he, hcount] using has.listed
        · simpa [he] using has.listed
      · simpa [Main.created] using hc
      · simpa [Main.deleted] using hd
      · rw [hputting]
        exact has.putting

end MeDiE.Server
