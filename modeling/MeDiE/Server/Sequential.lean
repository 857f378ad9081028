import MeDiE.Server.Requests
import MeDiE.Server.Transfer
import MeDiE.Verified.Transition

/-!
# A server that does one thing at a time

Requests, the sending of an entry and the unpacking of a packet, each from its
first to its last step.  Storage changes in `main` or in a transfer thread and the
list of names in `distribution_pre_send` or around the storage call; the theorem
says that the lists are an exact index of the storage after every operation.
-/

namespace MeDiE.Server

open MeDiE.Storage
open MeDiE.Verified.Transition

variable {n : Nat}

/-- What is local to a server: the lists of names and the files. -/
structure LocalData (n : Nat) where
  inChargeMd : Fin n → List Key
  store : Store

def LocalData.empty (n : Nat) : LocalData n where
  inChargeMd _ := []
  store _ := none

/-- Whole operations. -/
inductive Operation (n : Nat)
  | request (request : Request n)
  | sendEntry (entry : Fin n)
  | receivePacket (packet : Packet n)

/-- The loop of `thread_load_sender` over the names of an entry, up to the end or
the first file that is missing. -/
def drainEntry : List Key → Store → Packing n → List Key × Store × Packing n × Bool
  | [], store, packet => ([], store, packet, true)
  | mdName :: head, store, packet =>
      match genericDel store mdName with
      | none => (head, store, packet, false)
      | some store => drainEntry head store (packet.append mdName)

/-- The loop of `thread_load_receiver` over the names of a packet, up to the end or
the first file that exists. -/
def unpackNames : List Key → List Key → Store → List Key × Store × Bool
  | [], head, store => (head, store, true)
  | mdName :: mdNames, head, store =>
      match genericPut store mdName aWord with
      | none => (mdEntryInsert head mdName, store, false)
      | some store => unpackNames mdNames (mdEntryInsert head mdName) store

/-- An operation: the data after it, and whether no call has failed but those on
storage for a request.  A `get` of a missing key ends the process, and one of a value
of ten bytes or more is not defined. -/
def perform (data : LocalData n) : Operation n → Option (LocalData n × Bool)
  | .request request =>
      match storageOperation data.store request with
      | .nullString => none
      | .overrun => none
      | .returned store done _ =>
          let r := distributionPreSend (data.inChargeMd request.index) request done
          some
            ({ inChargeMd := Function.update data.inChargeMd request.index r.1
               store := store }, r.2)
  | .sendEntry entry =>
      let r := drainEntry (data.inChargeMd entry) data.store (Packing.start entry)
      some
        ({ inChargeMd := Function.update data.inChargeMd entry r.1
           store := r.2.1 }, r.2.2.2)
  | .receivePacket packet =>
      let r := unpackNames packet.names (data.inChargeMd packet.entry) data.store
      some
        ({ inChargeMd := Function.update data.inChargeMd packet.entry r.1
           store := r.2.1 }, r.2.2)

/-- Requests come to the entry of their key.  The names of a packet belong to its
entry, and none is stored when its turn comes. -/
def Allowed (hash : Key → Fin n) (operation : Operation n) (data : LocalData n) : Prop :=
  match operation with
  | .request request => request.index = hash request.key
  | .sendEntry _ => True
  | .receivePacket packet =>
      packet.names.Nodup ∧ ∀ name ∈ packet.names,
        hash name = packet.entry ∧ data.store name = none

/-- The list of an entry holds the stored keys of the entry, once each. -/
structure ExactIndex (hash : Key → Fin n) (data : LocalData n) : Prop where
  nodup : ∀ e, (data.inChargeMd e).Nodup
  mem : ∀ e key, key ∈ data.inChargeMd e ↔ hash key = e ∧ data.store key ≠ none

theorem exactIndex_empty (hash : Key → Fin n) : ExactIndex hash (LocalData.empty n) where
  nodup := fun _ => List.nodup_nil
  mem := fun e key => by simp [LocalData.empty]

variable {hash : Key → Fin n} {data : LocalData n}

/-- The list and the files of one entry are replaced. -/
theorem ExactIndex.replace (h : ExactIndex hash data) {entry : Fin n} {head : List Key}
    {store : Store} (hnodup : head.Nodup)
    (hmem : ∀ key, key ∈ head ↔ hash key = entry ∧ store key ≠ none)
    (hother : ∀ key, hash key ≠ entry → store key = data.store key) :
    ExactIndex hash
      { inChargeMd := Function.update data.inChargeMd entry head
        store := store } where
  nodup := by
    intro e
    by_cases he : e = entry
    · subst he
      simpa using hnodup
    · simpa [he] using h.nodup e
  mem := by
    intro e key
    by_cases he : e = entry
    · subst he
      simpa using hmem key
    · simp only [Function.update_of_ne he]
      rw [h.mem e key]
      constructor
      · rintro ⟨hhash, hstored⟩
        rw [hother key (hhash ▸ he)]
        exact ⟨hhash, hstored⟩
      · rintro ⟨hhash, hstored⟩
        rw [hother key (hhash ▸ he)] at hstored
        exact ⟨hhash, hstored⟩

/-! ## Requests -/

/-- Nothing is stored or removed. -/
theorem ExactIndex.keep (h : ExactIndex hash data) {entry : Fin n} {store : Store}
    (hstored : ∀ key, store key ≠ none ↔ data.store key ≠ none) :
    ExactIndex hash
      { inChargeMd := Function.update data.inChargeMd entry (data.inChargeMd entry)
        store := store } where
  nodup := by
    rw [Function.update_eq_self]
    exact h.nodup
  mem := by
    intro e key
    rw [Function.update_eq_self, hstored]
    exact h.mem e key

theorem ExactIndex.create (h : ExactIndex hash data) {key : Key} (value : Data)
    (hnew : data.store key = none) :
    ExactIndex hash
      { inChargeMd := Function.update data.inChargeMd (hash key)
          (mdEntryInsert (data.inChargeMd (hash key)) key)
        store := Function.update data.store key (some value) } := by
  apply h.replace
  · rw [mdEntryInsert, List.nodup_cons]
    refine ⟨fun hmem => ?_, h.nodup _⟩
    exact ((h.mem _ _).mp hmem).2 hnew
  · intro key'
    rw [mdEntryInsert, List.mem_cons, h.mem]
    by_cases heq : key' = key
    · subst heq
      simp
    · simp [heq]
  · intro key' hne
    apply Function.update_of_ne
    intro heq
    exact hne (congrArg hash heq)

theorem ExactIndex.delete (h : ExactIndex hash data) (key : Key) :
    ExactIndex hash
      { inChargeMd := Function.update data.inChargeMd (hash key)
          ((data.inChargeMd (hash key)).erase key)
        store := Function.update data.store key none } := by
  apply h.replace
  · exact (h.nodup _).erase key
  · intro key'
    rw [(h.nodup _).mem_erase_iff, h.mem]
    by_cases heq : key' = key
    · subst heq
      simp
    · simp [heq]
  · intro key' hne
    apply Function.update_of_ne
    intro heq
    exact hne (congrArg hash heq)

theorem ExactIndex.request (h : ExactIndex hash data) {request : Request n}
    (hindex : request.index = hash request.key) {data' : LocalData n} {ok : Bool}
    (hperform : perform data (.request request) = some (data', ok)) :
    ExactIndex hash data' ∧ ok = true := by
  obtain ⟨key, reqType, index, entryVersion⟩ := request
  change index = hash key at hindex
  subst hindex
  unfold perform at hperform
  cases reqType with
  | create value =>
      simp only [storageOperation] at hperform
      cases hput : genericPut data.store key value with
      | none =>
          simp only [hput] at hperform
          cases hperform
          exact ⟨h.keep fun _ => Iff.rfl, rfl⟩
      | some store =>
          obtain ⟨hnew, hstore⟩ := genericPut_eq_some.mp hput
          simp only [hput] at hperform
          cases hperform
          rw [hstore]
          exact ⟨h.create value hnew, rfl⟩
  | read =>
      simp only [storageOperation] at hperform
      cases hget : genericGet data.store key with
      | null | overrun => simp [hget] at hperform
      | value value =>
          simp only [hget] at hperform
          cases hperform
          exact ⟨h.keep fun _ => Iff.rfl, rfl⟩
  | update value =>
      simp only [storageOperation] at hperform
      cases hput : genericUpdate data.store key value with
      | none =>
          simp only [hput] at hperform
          cases hperform
          exact ⟨h.keep fun _ => Iff.rfl, rfl⟩
      | some store =>
          obtain ⟨hold, hstore⟩ := genericUpdate_eq_some.mp hput
          simp only [hput] at hperform
          cases hperform
          rw [hstore]
          refine ⟨h.keep fun key' => ?_, rfl⟩
          by_cases heq : key' = key
          · subst heq
            simp [hold]
          · rw [Function.update_of_ne heq]
  | delete =>
      simp only [storageOperation] at hperform
      cases hdel : genericDel data.store key with
      | none =>
          simp only [hdel] at hperform
          cases hperform
          exact ⟨h.keep fun _ => Iff.rfl, rfl⟩
      | some store =>
          obtain ⟨hold, hstore⟩ := genericDel_eq_some.mp hdel
          have hmem : key ∈ data.inChargeMd (hash key) := (h.mem _ _).mpr ⟨rfl, hold⟩
          simp only [hdel, distributionPreSend, mdEntrySearchMdName_eq, if_pos hmem,
            if_true] at hperform
          cases hperform
          rw [hstore]
          exact ⟨h.delete key, rfl⟩

/-! ## Transfers -/

/-- All names of a list that are stored, once each, are taken out and packed. -/
theorem drainEntry_of_stored (head : List Key) (store : Store) (packet : Packing n)
    (hnodup : head.Nodup) (hstored : ∀ key ∈ head, store key ≠ none) :
    ∃ store' packet', drainEntry head store packet = ([], store', packet', true) ∧
      (∀ key, store' key = if key ∈ head then none else store key) ∧
      packet'.entry = packet.entry ∧
      strtok packet'.mdNames = strtok packet.mdNames ++ head := by
  induction head generalizing store packet with
  | nil => exact ⟨store, packet, rfl, by simp, rfl, by simp⟩
  | cons mdName head ih =>
      obtain ⟨hnot, hnodup⟩ := List.nodup_cons.mp hnodup
      have hdel : genericDel store mdName = some (Function.update store mdName none) :=
        genericDel_eq_some.mpr ⟨hstored mdName List.mem_cons_self, rfl⟩
      have hrest : ∀ key ∈ head, Function.update store mdName none key ≠ none := by
        intro key hkey
        have hne : key ≠ mdName := fun heq => hnot (heq ▸ hkey)
        rw [Function.update_of_ne hne]
        exact hstored key (List.mem_cons_of_mem _ hkey)
      obtain ⟨store', packet', hdrain, hstore', hentry, hnames⟩ :=
        ih (Function.update store mdName none) (packet.append mdName) hnodup hrest
      refine ⟨store', packet', ?_, ?_, hentry, ?_⟩
      · rw [drainEntry, hdel]
        exact hdrain
      · intro key
        rw [hstore']
        by_cases heq : key = mdName
        · subst heq
          simp
        · simp [heq]
      · rw [hnames, strtok_packing_append]
        simp

theorem ExactIndex.sendEntry (h : ExactIndex hash data) (entry : Fin n)
    {data' : LocalData n} {ok : Bool}
    (hperform : perform data (.sendEntry entry) = some (data', ok)) :
    ExactIndex hash data' ∧ ok = true := by
  obtain ⟨store', packet', hdrain, hstore', _, _⟩ := drainEntry_of_stored
    (data.inChargeMd entry) data.store (Packing.start entry) (h.nodup entry)
    (fun key hkey => ((h.mem entry key).mp hkey).2)
  simp only [Server.perform, hdrain] at hperform
  cases hperform
  refine ⟨?_, rfl⟩
  apply h.replace
  · exact List.nodup_nil
  · intro key
    rw [hstore']
    have hmem := h.mem entry key
    by_cases hkey : key ∈ data.inChargeMd entry
    · simp [hkey]
    · have hnone : hash key = entry → data.store key = none := by
        intro hhash
        by_contra hstored
        exact hkey (hmem.mpr ⟨hhash, hstored⟩)
      simpa [hkey] using hnone
  · intro key hne
    rw [hstore', if_neg]
    exact fun hmem => hne ((h.mem entry key).mp hmem).1

/-- The packet of an entry names the keys of its list: it may be unpacked wherever
they are not stored. -/
theorem ExactIndex.names_sendEntry (h : ExactIndex hash data) (entry : Fin n) :
    (drainEntry (data.inChargeMd entry) data.store
      (Packing.start entry)).2.2.1.finish.names = data.inChargeMd entry := by
  obtain ⟨store', packet', hdrain, _, _, hnames⟩ := drainEntry_of_stored
    (data.inChargeMd entry) data.store (Packing.start entry) (h.nodup entry)
    (fun key hkey => ((h.mem entry key).mp hkey).2)
  rw [hdrain, names_finish, hnames, strtok_start]
  rfl

theorem ExactIndex.unpackNames {entry : Fin n} (mdNames : List Key)
    (h : ExactIndex hash data) (hnodup : mdNames.Nodup)
    (hnew : ∀ name ∈ mdNames, hash name = entry ∧ data.store name = none) :
    ∃ head store, Server.unpackNames mdNames (data.inChargeMd entry) data.store =
        (head, store, true) ∧
      ExactIndex hash
        { inChargeMd := Function.update data.inChargeMd entry head
          store := store } := by
  induction mdNames generalizing data with
  | nil => exact ⟨_, _, rfl, h.keep fun _ => Iff.rfl⟩
  | cons mdName mdNames ih =>
      obtain ⟨hnot, hnodup⟩ := List.nodup_cons.mp hnodup
      obtain ⟨hhash, hnone⟩ := hnew mdName List.mem_cons_self
      subst hhash
      have hput : genericPut data.store mdName aWord =
          some (Function.update data.store mdName (some aWord)) :=
        genericPut_eq_some.mpr ⟨hnone, rfl⟩
      obtain ⟨head, store, hunpack, hindex⟩ := ih (h.create aWord hnone) hnodup (by
        intro name hname
        obtain ⟨hhash, hstore⟩ := hnew name (List.mem_cons_of_mem _ hname)
        have hne : name ≠ mdName := fun heq => hnot (heq ▸ hname)
        refine ⟨hhash, ?_⟩
        show Function.update data.store mdName (some aWord) name = none
        rw [Function.update_of_ne hne]
        exact hstore)
      simp only [Function.update_self] at hunpack
      simp only [Function.update_idem] at hindex
      refine ⟨head, store, ?_, hindex⟩
      rw [Server.unpackNames, hput]
      exact hunpack

theorem ExactIndex.receivePacket (h : ExactIndex hash data) {packet : Packet n}
    (hallowed : Allowed hash (.receivePacket packet) data) {data' : LocalData n} {ok : Bool}
    (hperform : perform data (.receivePacket packet) = some (data', ok)) :
    ExactIndex hash data' ∧ ok = true := by
  obtain ⟨head, store, hunpack, hindex⟩ :=
    h.unpackNames packet.names hallowed.1 hallowed.2
  simp only [Server.perform, hunpack] at hperform
  cases hperform
  exact ⟨hindex, rfl⟩

/-! ## Sequences of operations -/

theorem ExactIndex.perform (h : ExactIndex hash data) {operation : Operation n}
    (hallowed : Allowed hash operation data) {data' : LocalData n} {ok : Bool}
    (hperform : perform data operation = some (data', ok)) :
    ExactIndex hash data' ∧ ok = true := by
  cases operation with
  | request request => exact h.request hallowed hperform
  | sendEntry entry => exact h.sendEntry entry hperform
  | receivePacket packet => exact h.receivePacket hallowed hperform

/-- One operation after the other. -/
def performStep (operation : Operation n) (data : LocalData n) : Option (LocalData n) :=
  (perform data operation).map Prod.fst

/-- Let requests come to the entry of their key, and let the names of a packet that is
received be distinct, belong to its entry and not be stored.  After any sequence of such
operations from empty storage the lists are an exact index of the storage, and no next
operation fails in bringing them up to date. -/
theorem exactIndex_of_operations (hash : Key → Fin n) (data : LocalData n)
    (hrun : Reach (LocalData.empty n) (StepsIf performStep (Allowed hash)) data) :
    ExactIndex hash data ∧
      ∀ operation data' ok, Allowed hash operation data →
        perform data operation = some (data', ok) → ok = true := by
  have hindex : ExactIndex hash data := by
    apply Reach.invariant (exactIndex_empty hash) _ hrun
    rintro data data' _ h ⟨operation, hallowed, hstep⟩
    rw [performStep, Option.map_eq_some_iff] at hstep
    obtain ⟨⟨data'', ok⟩, hperform, heq⟩ := hstep
    cases heq
    exact (h.perform hallowed hperform).1
  exact ⟨hindex, fun operation data' ok hallowed hperform =>
    (hindex.perform hallowed hperform).2⟩

section Sample

instance (hash : Key → Fin n) (operation : Operation n) (data : LocalData n) :
    Decidable (Allowed hash operation data) := by
  unfold Allowed
  split <;> infer_instance

def keyB : Key := ⟨['b'], by decide, by decide⟩

def keyC : Key := ⟨['c'], by decide, by decide⟩

def keyD : Key := ⟨['d'], by decide, by decide⟩

/-- `keyB` is in entry 1 and all other keys are in entry 0. -/
def sampleEntry (key : Key) : Fin 2 := if key = keyB then 1 else 0

def operationOn (key : Key) (reqType : ReqType) : Operation 2 :=
  .request { key := key, reqType := reqType, index := sampleEntry key, entryVersion := 0 }

/-- The second `create` and the second `delete` fail.  A packet with one name comes for
entry 0, to which another name belongs already, and entry 1 is sent away. -/
def sampleOperations : List (Operation 2) :=
  [operationOn keyC (.create .empty), operationOn keyC (.create .v),
    operationOn keyB (.create .empty), operationOn keyB (.update .v),
    operationOn keyD (.create .v), operationOn keyD .delete, operationOn keyD .delete,
    .receivePacket ((Packing.start 0).append keyD).finish, operationOn keyD .read,
    .sendEntry 1]

end Sample

/-- A packet brings back a name that has been deleted, and the lists are exact at the end. -/
theorem exactIndex_of_operations_sample :
    ∃ data : LocalData 2, ExactIndex sampleEntry data ∧
      data.inChargeMd 0 = [keyD, keyC] ∧ data.inChargeMd 1 = [] ∧
      ∀ data' ok, perform data (.sendEntry 0) = some (data', ok) → ok = true := by
  have hrun : ((run (guarded performStep (Allowed sampleEntry)) sampleOperations
      (LocalData.empty 2)).any
        fun data => decide (data.inChargeMd 0 = [keyD, keyC] ∧ data.inChargeMd 1 = [])) =
      true := by
    decide +kernel
  obtain ⟨data, hdata, hp⟩ := (Option.any_eq_true _ _).mp hrun
  obtain ⟨hzero, hone⟩ := of_decide_eq_true hp
  obtain ⟨hindex, hok⟩ := exactIndex_of_operations sampleEntry data (reach_of_guarded_run _ hdata)
  exact ⟨data, hindex, hzero, hone, fun data' ok hperform =>
    hok (.sendEntry 0) data' ok trivial hperform⟩

end MeDiE.Server
