import MeDiE.Server.Drains

/-!
# The keys that a server holds

A server holds a key whose file it has, or whose name is in a packet that it fills, that
it has sent and nobody has taken, or that it is unpacking.  The steps of the threads keep
the keys; a create and a delete change them when they are done in the storage.
-/

namespace MeDiE.Server

open MeDiE.Storage

variable {n nb : Nat} {A C : Type}

/-- The key is in the storage or in a packet. -/
def State.Holds (srv : State n nb A C) (k : Key) : Prop :=
  srv.store k ≠ none ∨ k ∈ srv.listener.packed ∨ k ∈ namesOf srv.wire ∨
    k ∈ srv.listener.waiting ∨ srv.listener.putting srv.inChargeMd = some k

/-- The spots of the keys that a server holds. -/
def Spot.Present : Spot → Prop
  | .nowhere | .deleted => False
  | .created | .stored | .popped | .packed | .wired | .waiting | .putting => True

theorem State.Has.holds_iff {srv : State n nb A C} {e : Fin n} {k : Key} {spot : Spot}
    (has : srv.Has e k spot) : srv.Holds k ↔ spot.Present := by
  rw [State.Holds, has.file, has.putting, ← List.count_pos_iff, ← List.count_pos_iff,
    ← List.count_pos_iff, has.packed, has.wired, has.waiting]
  cases spot <;> simp [Spot.Present]

/-- Of a key that no transfer has in hand there is the file. -/
theorem State.Has.holds_setStore {srv : State n nb A C} {e : Fin n} {k : Key} {spot : Spot}
    (has : srv.Has e k spot) (hspot : spot.Settled) (store : Store) (main : Main n C) :
    State.Holds { srv with store := store, main := main } k ↔ store k ≠ none := by
  obtain ⟨_, hpacked, hwired, hwaiting, hputting⟩ := hspot.ne
  constructor
  · rintro (hstore | hmem | hmem | hmem | heq)
    · exact hstore
    · rw [← List.count_pos_iff, has.packed, if_neg hpacked] at hmem
      exact absurd hmem (Nat.lt_irrefl 0)
    · rw [← List.count_pos_iff, has.wired, if_neg hwired] at hmem
      exact absurd hmem (Nat.lt_irrefl 0)
    · rw [← List.count_pos_iff, has.waiting, if_neg hwaiting] at hmem
      exact absurd hmem (Nat.lt_irrefl 0)
    · exact absurd (has.putting.mp heq) hputting
  · exact Or.inl

section Steps

variable [Eacl A n] {hash : Key → Fin n} {s : Fin nb} {srv srv' : State n nb A C} {l : Label}

/-- A step other than a storage operation keeps the keys. -/
theorem Step.holds_iff (h : Step s srv l srv') (named : srv.Named hash) (apart : srv.Apart)
    (sound : srv.Sound) (halone : LooksAlone srv l) (hnull : NullPointer srv l → l = .main)
    {k : Key} {spot : Spot} (has : srv.Has (hash k) k spot)
    (hcreated : srv'.main.created = srv.main.created)
    (hdeleted : srv'.main.deleted = srv.main.deleted) : srv'.Holds k ↔ srv.Holds k := by
  obtain ⟨spot', has', hmoved⟩ := has.step named apart sound halone hnull h
  rw [has'.holds_iff, has.holds_iff]
  cases hmoved with
  | create =>
      have hcreate := has'.created.mpr rfl
      rw [hcreated, has.created] at hcreate
      cases hcreate
  | delete =>
      have hdelete := has'.deleted.mpr rfl
      rw [hdeleted, has.deleted] at hdelete
      cases hdelete
  | stay => exact Iff.rfl
  | _ => exact Iff.rfl

/-- What a storage operation does to the keys of a server that knows of the request. -/
inductive Effect (srv : State n nb A C) (request : Request n) (srv' : State n nb A C) :
    Bool → Prop
  | created (data : Data) (htype : request.reqType = .create data)
      (hkey : ¬ srv.Holds request.key) (hkey' : srv'.Holds request.key) :
      Effect srv request srv' true
  | exists (data : Data) (htype : request.reqType = .create data)
      (hkey : srv.Holds request.key) (hkey' : srv'.Holds request.key) :
      Effect srv request srv' false
  | deleted (htype : request.reqType = .delete) (hkey : srv.Holds request.key)
      (hkey' : ¬ srv'.Holds request.key) : Effect srv request srv' true
  | missing (htype : request.reqType = .delete) (hkey : ¬ srv.Holds request.key)
      (hkey' : ¬ srv'.Holds request.key) : Effect srv request srv' false
  | read (htype : request.reqType = .read) (hkey : srv.Holds request.key)
      (hkey' : srv'.Holds request.key) : Effect srv request srv' true
  | updated (data : Data) (htype : request.reqType = .update data)
      (hkey : srv.Holds request.key) (hkey' : srv'.Holds request.key) :
      Effect srv request srv' true
  | notUpdated (data : Data) (htype : request.reqType = .update data)
      (hkey : srv'.Holds request.key ↔ srv.Holds request.key) :
      Effect srv request srv' false

omit [Eacl A n] in
/-- A read and an update leave the files that there are. -/
theorem holds_setValue {srv : State n nb A C} {k : Key} {data : Data}
    (hstore : srv.store k ≠ none) (main : Main n C) (k' : Key) :
    State.Holds
        { srv with store := Function.update srv.store k (some data), main := main } k' ↔
      srv.Holds k' := by
  refine or_congr ?_ Iff.rfl
  by_cases hk : k' = k
  · subst hk
    simpa using hstore
  · simp [hk]

omit [Eacl A n] in
/-- A storage operation is about the key of its request. -/
theorem holds_of_ne {request : Request n} {store : Store} {done : Bool}
    (h : Stored srv.store request store done) (main : Main n C) {k : Key}
    (hk : k ≠ request.key) :
    State.Holds { srv with store := store, main := main } k ↔ srv.Holds k := by
  refine or_congr ?_ Iff.rfl
  cases h with
  | failed => exact Iff.rfl
  | read hcreate hdelete => exact Iff.rfl
  | created data hcreate hdelete hstore => simp [hk]
  | updated data hcreate hdelete hstore => simp [hk]
  | deleted hcreate hdelete hstore => simp [hk]

omit [Eacl A n] in
theorem effect_of_storage (named : srv.Named hash) (apart : srv.Apart) {client : C}
    {request : Request n} (hmain : srv.main = .storage client request) {store : Store}
    {done : Bool} {getValue : Option Data} {spot : Spot}
    (has : srv.Has (hash request.key) request.key spot)
    (hstore : storageOperation srv.store request = .returned store done getValue) :
    Effect srv request { srv with
      store := store
      main := .preSend client request done getValue } done := by
  -- a create and a delete find the key in its file or nowhere
  have hsettled : isCreate request = true ∨ isDelete request = true → spot.Settled := by
    intro hchange
    have hmem : request ∈ srv.main.change :=
      Main.mem_change.mpr ⟨by rw [hmain]; rfl, hchange, by rw [hmain]; rfl⟩
    rcases has.of_change named apart hmem with rfl | rfl | rfl | rfl <;> trivial
  unfold storageOperation at hstore
  cases htype : request.reqType with
  | create data =>
      have hspot := hsettled (Or.inl (by simp [isCreate, htype]))
      have hbefore := has.holds_setStore hspot srv.store srv.main
      simp only [htype] at hstore
      split at hstore
      · rename_i hput
        cases hstore
        have hkey : srv.Holds request.key := by
          refine hbefore.mpr fun hnone => ?_
          rw [genericPut, hnone] at hput
          cases hput
        exact Effect.exists data htype hkey hkey
      · cases hstore
        obtain ⟨hnone, rfl⟩ := genericPut_eq_some.mp ‹_›
        refine Effect.created data htype (fun hkey => hbefore.mp hkey hnone) ?_
        exact (has.holds_setStore hspot _ _).mpr (by simp)
  | delete =>
      have hspot := hsettled (Or.inr (by simp [isDelete, htype]))
      have hbefore := has.holds_setStore hspot srv.store srv.main
      simp only [htype] at hstore
      split at hstore
      · rename_i hdel
        cases hstore
        have hkey : ¬ srv.Holds request.key := by
          intro hkey
          obtain ⟨data, hdata⟩ := Option.ne_none_iff_exists'.mp (hbefore.mp hkey)
          rw [genericDel, hdata] at hdel
          cases hdel
        exact Effect.missing htype hkey hkey
      · cases hstore
        obtain ⟨hsome, rfl⟩ := genericDel_eq_some.mp ‹_›
        refine Effect.deleted htype (hbefore.mpr hsome) fun hkey => ?_
        exact (has.holds_setStore hspot _ _).mp hkey (by simp)
  | read =>
      simp only [htype] at hstore
      split at hstore
      · cases hstore
      · rename_i value hget
        cases hstore
        have hkey : srv.Holds request.key := by
          left
          rw [(genericGet_eq_value.mp hget).1]
          exact Option.some_ne_none value
        exact Effect.read htype hkey hkey
      · cases hstore
  | update data =>
      simp only [htype] at hstore
      split at hstore
      · cases hstore
        exact Effect.notUpdated data htype Iff.rfl
      · cases hstore
        obtain ⟨hsome, rfl⟩ := genericUpdate_eq_some.mp ‹_›
        exact Effect.updated data htype (Or.inl hsome)
          ((holds_setValue hsome _ _).mpr (Or.inl hsome))

end Steps

end MeDiE.Server
