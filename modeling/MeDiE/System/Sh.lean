import MeDiE.Server.Requests
import MeDiE.Server.SpotMoves
import MeDiE.Verified.Linear

/-!
# Static hashing (`distribution_sh_c.c`, `distribution_sh_s.c`)

Without tables a client sends a request to the server that the hash of the key gives, and
a server takes every request.  There is nothing to refuse and nothing to transfer, so the
servers are one store, with the values: every request takes effect at its server at one
moment between its call and its answer.

The process of a server that is asked for a key without a file ends, and a value of ten
bytes or more is not read; the requests are not answered then.

`distribution_pre_send` returns a variable that it does not set.  Here it may be anything;
with something else than 0 in it, `client_request` gives up before the request is sent.
-/

namespace MeDiE.SystemSh

open MeDiE.Storage
open MeDiE.Server (StorageResult storageOperation)
open MeDiE.Verified
open MeDiE.Verified.Linear
open MeDiE.Verified.Transition

/-- Points of `client_request`. -/
inductive Point (nb : Nat)
  | idle
  | sent (idSrv : Fin nb) (key : Key) (reqType : ReqType)
  | fail
  | served
  | replied (done : Bool) (getValue : Option Data)

/-- Points of the loop of `main` in `server.c`, where `distribution_post_receive` and
`distribution_pre_send` do nothing. -/
inductive Main (C : Type)
  | recv
  | storage (client : C) (key : Key) (reqType : ReqType)
  | preSend (client : C) (key : Key) (done : Bool) (getValue : Option Data)
  | crashed

structure Server (C : Type) where
  store : Store
  main : Main C

structure State (nb : Nat) (C : Type) where
  srv : Fin nb → Server C
  client : C → Point nb

/-- Who moves; `rc` is what `distribution_pre_send` returns. -/
inductive Label (nb : Nat) (C : Type)
  | clientSend (client : C) (key : Key) (reqType : ReqType) (rc : Int)
  | clientFail (client : C)
  | mainRecv (s : Fin nb) (client : C)
  | main (s : Fin nb)
  | mainReply (s : Fin nb)
  | clientRecv (client : C)

variable {nb : Nat} {C : Type}

def init (nb : Nat) (C : Type) : State nb C where
  srv _ :=
    { store := fun _ => none
      main := .recv }
  client _ := .idle

/-- The request of a client, which has no entry and no version. -/
def requestOf (key : Key) (reqType : ReqType) : Request 1 where
  key := key
  reqType := reqType
  index := ⟨0, Nat.one_pos⟩
  entryVersion := 0

def State.setSrv (x : State nb C) (s : Fin nb) (srv : Server C) : State nb C :=
  { x with srv := Function.update x.srv s srv }

/-- The storage operation of `main`. -/
def Server.step (srv : Server C) : Option (Server C) :=
  match srv.main with
  | .storage client key reqType =>
      match storageOperation srv.store (requestOf key reqType) with
      | .returned store done getValue =>
          some
            { store := store
              main := .preSend client key done getValue }
      | .nullString => some { srv with main := .crashed }
      | .overrun => none
  | _ => none

section Step

variable [DecidableEq C]

def State.setClient (x : State nb C) (c : C) (point : Point nb) : State nb C :=
  { x with client := Function.update x.client c point }

/-- One step; `shard` is `MurmurHash3_x86_32` modulo `nb_srv`. -/
def step (shard : Key → Fin nb) (l : Label nb C) (x : State nb C) : Option (State nb C) :=
  match l with
  | .clientSend c key reqType rc =>
      match x.client c with
      | .idle =>
          if rc = 0 then some (x.setClient c (.sent (shard key) key reqType))
          else some (x.setClient c .fail)
      | _ => none
  | .clientFail c =>
      match x.client c with
      | .fail => some (x.setClient c .idle)
      | _ => none
  | .mainRecv s c =>
      match x.client c, (x.srv s).main with
      | .sent idSrv key reqType, .recv =>
          if idSrv = s then
            some ((x.setSrv s { x.srv s with main := .storage c key reqType }).setClient c .served)
          else none
      | _, _ => none
  | .main s => (x.srv s).step.map (x.setSrv s)
  | .mainReply s =>
      match (x.srv s).main with
      | .preSend c _ done getValue =>
          some ((x.setSrv s { x.srv s with main := .recv }).setClient c (.replied done getValue))
      | _ => none
  | .clientRecv c =>
      match x.client c with
      | .replied _ _ => some (x.setClient c .idle)
      | _ => none

end Step

/-! ## One store -/

/-- The files of all servers: a key is looked for where its hash sends it. -/
def storeOf (shard : Key → Fin nb) (x : State nb C) : Store := fun k => (x.srv (shard k)).store k

/-- A map from keys to values: a create adds a key, an update and a delete need it, and
a get returns the value that was put last. -/
inductive StoreSpec : Key × ReqType → (Key → Option Data) → Bool × Option Data →
    (Key → Option Data) → Prop
  | created {k : Key} {data : Data} {map : Key → Option Data} (hk : map k = none) :
      StoreSpec (k, .create data) map (true, none) (Function.update map k (some data))
  | exists {k : Key} {data : Data} {map : Key → Option Data} (hk : map k ≠ none) :
      StoreSpec (k, .create data) map (false, none) map
  | updated {k : Key} {data : Data} {map : Key → Option Data} (hk : map k ≠ none) :
      StoreSpec (k, .update data) map (true, none) (Function.update map k (some data))
  | notUpdated {k : Key} {data : Data} {map : Key → Option Data} (hk : map k = none) :
      StoreSpec (k, .update data) map (false, none) map
  | deleted {k : Key} {map : Key → Option Data} (hk : map k ≠ none) :
      StoreSpec (k, .delete) map (true, none) (Function.update map k none)
  | missing {k : Key} {map : Key → Option Data} (hk : map k = none) :
      StoreSpec (k, .delete) map (false, none) map
  | read {k : Key} {data : Data} {map : Key → Option Data} (hk : map k = some data) :
      StoreSpec (k, .read) map (true, some data) map

/-- A storage operation that returns is what the map does. -/
theorem storeSpec_of_returned {store store' : Store} {key : Key} {reqType : ReqType}
    {done : Bool} {getValue : Option Data}
    (h : storageOperation store (requestOf key reqType) = .returned store' done getValue) :
    StoreSpec (key, reqType) store (done, getValue) store' := by
  cases reqType with
  | create data =>
      simp only [storageOperation, requestOf, genericPut] at h
      cases hk : store key with
      | none =>
          simp only [hk] at h
          cases h
          exact StoreSpec.created hk
      | some old =>
          simp only [hk] at h
          cases h
          exact StoreSpec.exists (by simp [hk])
  | update data =>
      simp only [storageOperation, requestOf, genericUpdate] at h
      cases hk : store key with
      | none =>
          simp only [hk] at h
          cases h
          exact StoreSpec.notUpdated hk
      | some old =>
          simp only [hk] at h
          cases h
          exact StoreSpec.updated (by simp [hk])
  | delete =>
      simp only [storageOperation, requestOf, genericDel] at h
      cases hk : store key with
      | none =>
          simp only [hk] at h
          cases h
          exact StoreSpec.missing hk
      | some old =>
          simp only [hk] at h
          cases h
          exact StoreSpec.deleted (by simp [hk])
  | read =>
      simp only [storageOperation, requestOf] at h
      cases hget : genericGet store key with
      | value data =>
          simp only [hget] at h
          cases h
          exact StoreSpec.read (genericGet_eq_value.mp hget).1
      | null | overrun => simp [hget] at h

/-- A storage operation is about one file. -/
theorem storageOperation_congr {n : Nat} {store store' other : Store} {request : Request n}
    {done : Bool} {getValue : Option Data}
    (h : storageOperation store request = .returned store' done getValue)
    (hkey : other request.key = store request.key) :
    storageOperation other request =
      .returned (Function.update other request.key (store' request.key)) done getValue := by
  have hself : Function.update other request.key (store request.key) = other := by
    rw [← hkey, Function.update_eq_self]
  cases htype : request.reqType with
  | read =>
      have hget : genericGet other request.key = genericGet store request.key := by
        rw [genericGet, genericGet, hkey]
      simp only [storageOperation, htype, hget] at h ⊢
      cases hvalue : genericGet store request.key with
      | null | overrun => simp [hvalue] at h
      | value data =>
          simp only [hvalue] at h ⊢
          cases h
          rw [hself]
  | _ =>
      unfold storageOperation genericPut genericUpdate genericDel at h ⊢
      rw [hkey]
      cases hfile : store request.key <;> simp only [htype, hfile] at h <;> cases h <;> simp_all

theorem storageOperation_of_ne {n : Nat} {store store' : Store} {request : Request n}
    {done : Bool} {getValue : Option Data}
    (h : storageOperation store request = .returned store' done getValue) {k : Key}
    (hk : k ≠ request.key) : store' k = store k := by
  have hsame : storageOperation store request = _ := storageOperation_congr h rfl
  rw [h, StorageResult.returned.injEq] at hsame
  rw [hsame.1, Function.update_of_ne hk]

theorem storeOf_setSrv {shard : Key → Fin nb} {x : State nb C} {s : Fin nb} {srv : Server C}
    (hkeys : ∀ k, shard k = s → srv.store k = (x.srv s).store k) :
    storeOf shard (x.setSrv s srv) = storeOf shard x := by
  funext k
  by_cases hk : shard k = s
  · simp [storeOf, State.setSrv, hk, hkeys k hk]
  · simp [storeOf, State.setSrv, hk]

/-- The operation at the server of the key is the operation on the one store. -/
theorem storeSpec_of_storage {shard : Key → Fin nb} {x : State nb C} {s : Fin nb}
    {key : Key} {reqType : ReqType} (hkey : shard key = s) {store : Store} {done : Bool}
    {getValue : Option Data} (main : Main C)
    (h : storageOperation (x.srv s).store (requestOf key reqType) =
      .returned store done getValue) :
    StoreSpec (key, reqType) (storeOf shard x) (done, getValue)
      (storeOf shard (x.setSrv s { store := store, main := main })) := by
  have hone : storeOf shard x key = (x.srv s).store key := by rw [storeOf, hkey]
  have hspec := storeSpec_of_returned (storageOperation_congr h hone)
  convert hspec using 1
  funext k
  by_cases hk : k = key
  · subst hk
    simp [storeOf, State.setSrv, hkey, requestOf]
  · have hk' : k ≠ (requestOf key reqType).key := hk
    rw [Function.update_of_ne hk']
    by_cases hs : shard k = s
    · simp [storeOf, State.setSrv, hs, storageOperation_of_ne h hk']
    · simp [storeOf, State.setSrv, hs]

/-! ## Calls and answers -/

/-- The calls of the clients with what came of them. -/
abbrev StoreEvent (C : Type) := Event C (Key × ReqType) (Bool × Option Data)

/-- The client calls, gets a reply or gives up. -/
def recordEvents (l : Label nb C) (x _y : State nb C) (events : List (StoreEvent C)) :
    List (StoreEvent C) :=
  match l with
  | .clientSend c key reqType _ => events ++ [.call c (key, reqType)]
  | .clientFail c => events ++ [.refusal c]
  | .clientRecv c =>
      match x.client c with
      | .replied done getValue => events ++ [.answer c (done, getValue)]
      | _ => events
  | _ => events

/-- What a client that waits can say of its request. -/
def waitsOf (point : Point nb) : Option (Status (Key × ReqType) (Bool × Option Data) → Prop) :=
  match point with
  | .idle => some (· = .idle)
  | .sent _ key reqType => some (· = .called (key, reqType))
  | .fail => some fun status => ∃ o, status = .called o
  | .served => none
  | .replied done getValue => some (· = .decided (done, getValue))

/-- The client that the main loop works for, and how far it is. -/
def deskOf (srv : Server C) : Option (C × Status (Key × ReqType) (Bool × Option Data)) :=
  match srv.main with
  | .recv => none
  | .storage client key reqType => some (client, .called (key, reqType))
  | .preSend client _ done getValue => some (client, .decided (done, getValue))
  | .crashed => none

/-- Requests and files are where the hash of the key sends them. -/
structure Placed (shard : Key → Fin nb) (x : State nb C) : Prop where
  client : ∀ c s key reqType, x.client c = .sent s key reqType → shard key = s
  main : ∀ s c key reqType, (x.srv s).main = .storage c key reqType → shard key = s
  store : ∀ s k, (x.srv s).store k ≠ none → shard k = s

section Steps

variable [DecidableEq C] {shard : Key → Fin nb} {x y : State nb C} {l : Label nb C}

/-- The cases of `step`. -/
inductive Step (shard : Key → Fin nb) (x : State nb C) : Label nb C → State nb C → Prop
  | send (c : C) (key : Key) (reqType : ReqType) (hc : x.client c = .idle) :
      Step shard x (.clientSend c key reqType 0) (x.setClient c (.sent (shard key) key reqType))
  | sendFail (c : C) (key : Key) (reqType : ReqType) (rc : Int) (hc : x.client c = .idle) :
      Step shard x (.clientSend c key reqType rc) (x.setClient c .fail)
  | fail (c : C) (hc : x.client c = .fail) :
      Step shard x (.clientFail c) (x.setClient c .idle)
  | take (s : Fin nb) (c : C) (key : Key) (reqType : ReqType)
      (hc : x.client c = .sent s key reqType) (hmain : (x.srv s).main = .recv) :
      Step shard x (.mainRecv s c)
        ((x.setSrv s { x.srv s with main := .storage c key reqType }).setClient c .served)
  | storage (s : Fin nb) (c : C) (key : Key) (reqType : ReqType)
      (hmain : (x.srv s).main = .storage c key reqType) (store : Store) (done : Bool)
      (getValue : Option Data)
      (hstore : storageOperation (x.srv s).store (requestOf key reqType) =
        .returned store done getValue) :
      Step shard x (.main s)
        (x.setSrv s { store := store, main := .preSend c key done getValue })
  | crash (s : Fin nb) : Step shard x (.main s) (x.setSrv s { x.srv s with main := .crashed })
  | reply (s : Fin nb) (c : C) (key : Key) (done : Bool) (getValue : Option Data)
      (hmain : (x.srv s).main = .preSend c key done getValue) :
      Step shard x (.mainReply s)
        ((x.setSrv s { x.srv s with main := .recv }).setClient c (.replied done getValue))
  | recv (c : C) (done : Bool) (getValue : Option Data)
      (hc : x.client c = .replied done getValue) :
      Step shard x (.clientRecv c) (x.setClient c .idle)

theorem step_cases (h : step shard l x = some y) : Step shard x l y := by
  cases l with
  | clientSend c key reqType rc =>
      simp only [step] at h
      split at h
      · rename_i hc
        split at h
        · rename_i hrc
          cases h
          exact hrc ▸ Step.send c key reqType hc
        · cases h
          exact Step.sendFail c key reqType rc hc
      · cases h
  | clientFail c =>
      simp only [step] at h
      split at h
      · cases h
        exact Step.fail c ‹_›
      · cases h
  | mainRecv s c =>
      simp only [step] at h
      split at h
      · rename_i idSrv key reqType hc hmain
        split at h
        · rename_i hs
          subst hs
          cases h
          exact Step.take idSrv c key reqType hc hmain
        · cases h
      · cases h
  | main s =>
      rw [step, Option.map_eq_some_iff] at h
      obtain ⟨srv, hsrv, rfl⟩ := h
      unfold Server.step at hsrv
      split at hsrv
      · rename_i c key reqType hmain
        split at hsrv
        · cases hsrv
          exact Step.storage s c key reqType hmain _ _ _ ‹_›
        · cases hsrv
          exact Step.crash s
        · cases hsrv
      · cases hsrv
  | mainReply s =>
      simp only [step] at h
      split at h
      · cases h
        exact Step.reply s _ _ _ _ ‹_›
      · cases h
  | clientRecv c =>
      simp only [step] at h
      split at h
      · cases h
        exact Step.recv c _ _ ‹_›
      · cases h

omit [DecidableEq C] in
/-- A server goes on, and the requests and the files that it did not have are for it. -/
theorem Placed.setSrv (placed : Placed shard x) {s : Fin nb} {srv : Server C}
    (hmain : ∀ c key reqType, srv.main = .storage c key reqType → shard key = s)
    (hstore : ∀ k, srv.store k ≠ none → shard k = s) : Placed shard (x.setSrv s srv) where
  client := placed.client
  main := by
    intro w c key reqType hw
    by_cases hs : w = s
    · subst hs
      exact hmain c key reqType (by simpa [State.setSrv] using hw)
    · exact placed.main w c key reqType (by simpa [State.setSrv, hs] using hw)
  store := by
    intro w k hw
    by_cases hs : w = s
    · subst hs
      exact hstore k (by simpa [State.setSrv] using hw)
    · exact placed.store w k (by simpa [State.setSrv, hs] using hw)

theorem Placed.setClient (placed : Placed shard x) {c : C} {point : Point nb}
    (hpoint : ∀ s key reqType, point = .sent s key reqType → shard key = s) :
    Placed shard (x.setClient c point) where
  client := by
    intro d s key reqType hd
    by_cases hc : d = c
    · subst hc
      exact hpoint s key reqType (by simpa [State.setClient] using hd)
    · exact placed.client d s key reqType (by simpa [State.setClient, hc] using hd)
  main := placed.main
  store := placed.store

theorem Placed.step (placed : Placed shard x) (h : Step shard x l y) : Placed shard y := by
  cases h with
  | send c key reqType hc =>
      apply placed.setClient
      intro s key' reqType' heq
      cases heq
      rfl
  | sendFail c key reqType rc hc => exact placed.setClient fun _ _ _ heq => by cases heq
  | fail c hc => exact placed.setClient fun _ _ _ heq => by cases heq
  | take s c key reqType hc hmain =>
      apply Placed.setClient
      · apply placed.setSrv
        · intro c' key' reqType' heq
          cases heq
          exact placed.client c s key reqType hc
        · exact placed.store s
      · intro s' key' reqType' heq
        cases heq
  | storage s c key reqType hmain store done getValue hstore =>
      apply placed.setSrv
      · intro c' key' reqType' heq
        cases heq
      · intro k hk
        by_cases hkey : k = key
        · rw [hkey]
          exact placed.main s c key reqType hmain
        · have hsame : store k = (x.srv s).store k := storageOperation_of_ne hstore hkey
          exact placed.store s k (hsame ▸ hk)
  | crash s => exact placed.setSrv (fun _ _ _ heq => by cases heq) (placed.store s)
  | reply s c key done getValue hmain =>
      apply Placed.setClient
      · apply placed.setSrv
        · intro c' key' reqType' heq
          cases heq
        · exact placed.store s
      · intro s' key' reqType' heq
        cases heq
  | recv c done getValue hc => exact placed.setClient fun _ _ _ heq => by cases heq

/-- A step is an operation on the one store, a call or the end of one, or is not seen. -/
theorem explains_step (placed : Placed shard x) (h : Step shard x l y)
    {events : List (StoreEvent C)} {st : Linear.State C (Key × ReqType) (Bool × Option Data) Store}
    (sim : Explains (storeOf shard x) events (waitsOf ∘ x.client) (deskOf ∘ x.srv) st) :
    ∃ st', (st' = st ∨ Linear.Step StoreSpec st st') ∧
      Explains (storeOf shard y) (recordEvents l x y events) (waitsOf ∘ y.client)
        (deskOf ∘ y.srv) st' := by
  have hwaits : ∀ (z : State nb C) c point, waitsOf ∘ (z.setClient c point).client =
      Function.update (waitsOf ∘ z.client) c (waitsOf point) := fun _ _ _ =>
    Function.comp_update _ _ _ _
  have hdesk : ∀ s srv, deskOf ∘ (x.setSrv s srv).srv =
      Function.update (deskOf ∘ x.srv) s (deskOf srv) := fun _ _ =>
    Function.comp_update _ _ _ _
  cases h with
  | send c key reqType hc =>
      have hidle : (waitsOf ∘ x.client) c = some (· = .idle) := by simp [waitsOf, hc]
      obtain ⟨st', hnext, hcall⟩ := sim.call StoreSpec hidle (fun _ h => h) (key, reqType)
        (· = .called (key, reqType)) rfl
      refine ⟨st', Or.inr hnext, ?_⟩
      rw [hwaits]
      exact hcall
  | sendFail c key reqType rc hc =>
      have hidle : (waitsOf ∘ x.client) c = some (· = .idle) := by simp [waitsOf, hc]
      obtain ⟨st', hnext, hcall⟩ := sim.call StoreSpec hidle (fun _ h => h) (key, reqType)
        (fun status => ∃ o, status = .called o) ⟨_, rfl⟩
      refine ⟨st', Or.inr hnext, ?_⟩
      rw [hwaits]
      exact hcall
  | fail c hc =>
      have hfail : (waitsOf ∘ x.client) c = some fun status => ∃ o, status = .called o := by
        simp [waitsOf, hc]
      obtain ⟨st', hnext, hrefusal⟩ :=
        sim.refusal StoreSpec hfail (fun _ h => h) (· = .idle) rfl
      refine ⟨st', Or.inr hnext, ?_⟩
      rw [hwaits]
      exact hrefusal
  | take s c key reqType hc hmain =>
      have hsent : (waitsOf ∘ x.client) c = some (· = .called (key, reqType)) := by
        simp [waitsOf, hc]
      refine ⟨st, Or.inl rfl, ?_⟩
      rw [hwaits]
      exact (sim.take hsent s fun _ h => h).congr (storeOf_setSrv fun _ _ => rfl) rfl (hdesk s _)
  | storage s c key reqType hmain store done getValue hstore =>
      have hcalled : (deskOf ∘ x.srv) s = some (c, .called (key, reqType)) := by
        simp [deskOf, hmain]
      obtain ⟨st', hnext, hpoint⟩ := sim.point hcalled
        (storeSpec_of_storage (placed.main s c key reqType hmain) _ hstore)
      refine ⟨st', Or.inr hnext, ?_⟩
      rw [hdesk]
      exact hpoint
  | crash s =>
      refine ⟨st, Or.inl rfl, ?_⟩
      exact (sim.drop s).congr (storeOf_setSrv fun _ _ => rfl) rfl (hdesk s _)
  | reply s c key done getValue hmain =>
      have hdecided : (deskOf ∘ x.srv) s = some (c, .decided (done, getValue)) := by
        simp [deskOf, hmain]
      refine ⟨st, Or.inl rfl, ?_⟩
      rw [hwaits]
      exact (sim.back hdecided (· = .decided (done, getValue)) rfl).congr
        (storeOf_setSrv fun _ _ => rfl) rfl (hdesk s _)
  | recv c done getValue hc =>
      have hreplied : (waitsOf ∘ x.client) c = some (· = .decided (done, getValue)) := by
        simp [waitsOf, hc]
      obtain ⟨st', hnext, hanswer⟩ :=
        sim.answer StoreSpec hreplied (fun _ h => h) (· = .idle) rfl
      refine ⟨st', Or.inr hnext, ?_⟩
      rw [hwaits, recordEvents, hc]
      exact hanswer

/-- **Static hashing is one store.**  Under every order of the steps the clients' replies,
with the values that were read, are those of a single map from keys to values in which
every request takes effect at one moment between its call and its reply, and a request that
was given up never does.  The map is what the files of the servers hold together, each of
which is where the hash of its key sends requests. -/
theorem store_linearizable (shard : Key → Fin nb) (x : State nb C × List (StoreEvent C))
    (hx : Reach (init nb C, []) (Steps (withHistory (step shard) recordEvents)) x) :
    Linearizable StoreSpec (fun _ => none) x.2 (storeOf shard x.1) ∧
      ∀ s k, (x.1.srv s).store k ≠ none → shard k = s := by
  have hplaced : ∀ x : State nb C × List (StoreEvent C),
      Reach (init nb C, []) (Steps (withHistory (step shard) recordEvents)) x →
        Placed shard x.1 := by
    intro x hx
    refine hx.invariant (I := fun x => Placed shard x.1) ?_ ?_
    · exact ⟨fun _ _ _ _ h => (by cases h), fun _ _ _ _ h => (by cases h),
        fun _ _ h => absurd rfl h⟩
    · rintro x y _ placed ⟨l, hl⟩
      exact placed.step (step_cases (withHistory_eq_some.mp hl).1)
  refine ⟨?_, (hplaced x hx).store⟩
  refine linearizable_of_explains StoreSpec
    (fun x : State nb C × List (StoreEvent C) => storeOf shard x.1) Prod.snd
    (fun x => waitsOf ∘ x.1.client) (fun x => deskOf ∘ x.1.srv) ?_ ?_ hx
  · constructor
    · rfl
    · rfl
    · intro c Q hc
      cases hc
      rfl
    · intro s c status hc
      cases hc
    · intro s w c status status' hc
      cases hc
  · rintro x y st hx sim ⟨l, hl⟩
    obtain ⟨hy, hrecord⟩ := withHistory_eq_some.mp hl
    rw [hrecord]
    exact explains_step (hplaced x hx) (step_cases hy) sim

end Steps

def sampleKey : Key := ⟨['s'], by decide, by decide⟩

/-- Two clients create the same key at server 1, of which the second one to be served
fails, and the key is read. -/
theorem store_linearizable_two_clients :
    ∃ x : State 2 Bool × List (StoreEvent Bool),
      x.2 = [.call false (sampleKey, .create .empty), .call true (sampleKey, .create .v),
        .answer true (true, none), .answer false (false, none),
        .call true (sampleKey, .read), .answer true (true, some .v)] ∧
      Linearizable StoreSpec (fun _ => none) x.2 (storeOf (fun _ => 1) x.1) := by
  have hrun : ((run (withHistory (step fun _ => (1 : Fin 2)) recordEvents)
      [.clientSend false sampleKey (.create .empty) 0, .clientSend true sampleKey (.create .v) 0,
        .mainRecv 1 true, .main 1, .mainReply 1, .clientRecv true, .mainRecv 1 false, .main 1,
        .mainReply 1, .clientRecv false, .clientSend true sampleKey .read 0, .mainRecv 1 true,
        .main 1, .mainReply 1, .clientRecv true] (init 2 Bool, [])).any
        fun x => decide (x.2 = [.call false (sampleKey, .create .empty),
          .call true (sampleKey, .create .v), .answer true (true, none),
          .answer false (false, none), .call true (sampleKey, .read),
          .answer true (true, some .v)])) = true := by
    decide +kernel
  obtain ⟨x, hx, hp⟩ := (Option.any_eq_true _ _).mp hrun
  exact ⟨x, of_decide_eq_true hp,
    (store_linearizable (fun _ => 1) x (reach_of_run _ Reach.start hx)).1⟩

end MeDiE.SystemSh
