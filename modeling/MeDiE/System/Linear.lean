import MeDiE.Server.Holding
import MeDiE.System.Keys
import MeDiE.Verified.Linear

/-!
# The keys of the system are one set

To the clients the servers are one set of keys.  A create and a delete take effect at the
storage operation of the one server that holds the entry, and the transfers between the
servers are not seen: whatever the order of the steps, the answers are those of requests
that have been worked on one after the other, each between its call and its answer.
The values are not part of it, for a transfer puts `a_word` into every file.
-/

namespace MeDiE.System

open MeDiE.Server
open MeDiE.Storage
open MeDiE.Verified
open MeDiE.Verified.Linear
open MeDiE.Verified.Transition

variable {n nb : Nat} {A C : Type}

/-- The keys that are in the storage of a server or in a packet. -/
def keysOf (x : State n nb A C) : Set Key := {k | ∃ s, (x.srv s).Holds k}

/-- What the requests do to a set of keys when each finds what the ones before it have
left. -/
def SetSpec (o : Key × ReqType) (K : Set Key) (done : Bool) (K' : Set Key) : Prop :=
  match o.2 with
  | .create _ => (done = true ↔ o.1 ∉ K) ∧ K' = insert o.1 K
  | .delete => (done = true ↔ o.1 ∈ K) ∧ K' = K \ {o.1}
  | .read => (done = true ↔ o.1 ∈ K) ∧ K' = K
  | .update _ => (done = true ↔ o.1 ∈ K) ∧ K' = K

/-- The key that the main loop is about to update and has no file of. -/
def missedUpdate (srv : Server.State n nb A C) : Option Key :=
  match srv.main with
  | .storage _ ⟨key, .update _, _, _⟩ => if srv.store key = none then some key else none
  | _ => none

theorem eq_of_missedUpdate {srv : Server.State n nb A C} {c : C} {request : Request n}
    (hmain : srv.main = .storage c request) {k : Key} (hk : k ∈ missedUpdate srv) :
    k = request.key ∧ srv.store request.key = none := by
  rw [missedUpdate, hmain] at hk
  split at hk
  · rename_i heq
    cases heq
    split at hk
    · cases hk
      exact ⟨rfl, ‹_›⟩
    · cases hk
  · cases hk

/-- An update that does not find the file of its key comes when no server has the key, in
its storage or in a packet. -/
def FindsUpdates (l : Label nb C) (x : State n nb A C) : Prop :=
  match l with
  | .server s .main => ∀ k ∈ missedUpdate (x.srv s), ∀ w, ¬ (x.srv w).Holds k
  | _ => True

instance (srv : Server.State n nb A C) (k : Key) : Decidable (srv.Holds k) :=
  inferInstanceAs (Decidable (_ ∨ _))

instance (l : Label nb C) (x : State n nb A C) : Decidable (FindsUpdates l x) :=
  match l with
  | .server s .main =>
      inferInstanceAs (Decidable (∀ k ∈ missedUpdate (x.srv s), ∀ w, ¬ (x.srv w).Holds k))
  | .server _ .usr2 | .server _ (.handler _) | .server _ .listener | .server _ .sender
  | .server _ .receiver | .usrHandler2 | .manager | .managerRecv _ | .managerSend
  | .takePacket _ _ | .replyPacket _ | .mainRecv _ _ | .mainReply _ | .clientSend _ _ _
  | .clientRecv _ => isTrue trivial

/-- No sender looks at a list with a create or a delete in its way, no process ends over a
key that it is asked for, and no update is for a key that a packet has. -/
def KeysInSight (l : Label nb C) (x : State n nb A C) : Prop :=
  KeepsKeys l x ∧ FindsUpdates l x

instance (l : Label nb C) (x : State n nb A C) : Decidable (KeysInSight l x) :=
  inferInstanceAs (Decidable (KeepsKeys l x ∧ FindsUpdates l x))

/-! ## The keys at a step -/

theorem keysOf_congr {x y : State n nb A C}
    (h : ∀ s k, (y.srv s).Holds k ↔ (x.srv s).Holds k) : keysOf y = keysOf x :=
  Set.ext fun k => exists_congr fun s => h s k

theorem keysOf_setSrv {x : State n nb A C} {s : Fin nb} {srv : Server.State n nb A C}
    (h : ∀ k, srv.Holds k ↔ (x.srv s).Holds k) : keysOf (x.setSrv s srv) = keysOf x :=
  keysOf_congr (forall_setSrv (P := fun w srv => ∀ k, srv.Holds k ↔ (x.srv w).Holds k)
    (fun _ _ => Iff.rfl) h)

/-- One key comes or goes at a server. -/
theorem mem_keysOf_setSrv {x : State n nb A C} {s : Fin nb} {srv : Server.State n nb A C}
    {k : Key} : k ∈ keysOf (x.setSrv s srv) ↔
      srv.Holds k ∨ ∃ w, w ≠ s ∧ (x.srv w).Holds k := by
  constructor
  · rintro ⟨w, hw⟩
    by_cases hs : w = s
    · subst hs
      left
      simpa using hw
    · exact Or.inr ⟨w, hs, by simpa [hs] using hw⟩
  · rintro (h | ⟨w, hs, hw⟩)
    · exact ⟨s, by simpa using h⟩
    · exact ⟨w, by simpa [hs] using hw⟩

theorem mem_keysOf_iff {x : State n nb A C} {s : Fin nb} {k : Key} :
    k ∈ keysOf x ↔ (x.srv s).Holds k ∨ ∃ w, w ≠ s ∧ (x.srv w).Holds k := by
  constructor
  · rintro ⟨w, hw⟩
    by_cases hs : w = s
    · exact Or.inl (hs ▸ hw)
    · exact Or.inr ⟨w, hs, hw⟩
  · rintro (h | ⟨w, _, hw⟩)
    · exact ⟨s, h⟩
    · exact ⟨w, hw⟩

/-- The names go from the wire to the receiver. -/
theorem keysOf_takePacket {x : State n nb A C} {w s : Fin nb} {sender : LoadSender n nb}
    {left : Nat} {packet : Packet n}
    (hw : (x.srv w).listener = .transfer sender (.recv (left + 1)))
    (hwire : (x.srv s).wire = some (w, packet)) :
    keysOf ((x.setSrv s { x.srv s with wire := none }).setSrv w
      { (x.setSrv s { x.srv s with wire := none }).srv w with
        listener := .transfer sender (.unpack s packet.entry packet.names left) }) =
      keysOf x := by
  have htaken : ∀ k, (x.srv s).Holds k ↔
      Server.State.Holds { x.srv s with wire := none } k ∨ k ∈ packet.names := by
    intro k
    simp only [Server.State.Holds, hwire, namesOf, List.not_mem_nil, false_or]
    tauto
  have htake : ∀ (srv : Server.State n nb A C),
      srv.listener = .transfer sender (.recv (left + 1)) → ∀ k,
      Server.State.Holds { srv with
        listener := .transfer sender (.unpack s packet.entry packet.names left) } k ↔
      srv.Holds k ∨ k ∈ packet.names := by
    intro srv hl k
    simp [Server.State.Holds, hl]
    tauto
  ext k
  have hl : ((x.setSrv s { x.srv s with wire := none }).srv w).listener = _ :=
    listener_setSrv hw rfl
  rw [mem_keysOf_setSrv, htake _ hl, or_right_comm, ← mem_keysOf_iff, mem_keysOf_setSrv,
    or_right_comm, ← htaken, ← mem_keysOf_iff]

/-- What a server does to its own keys when no other server has the key that comes or
goes. -/
theorem setSpec_of_effect {x : State n nb A C} {s : Fin nb} {request : Request n}
    {srv : Server.State n nb A C} {done : Bool} (h : Effect (x.srv s) request srv done)
    (hothers : ∀ k, k ≠ request.key → (srv.Holds k ↔ (x.srv s).Holds k))
    (halone : isCreate request = true ∨ isDelete request = true →
      ¬ ∃ w, w ≠ s ∧ (x.srv w).Holds request.key)
    (hupdate : done = false → (∃ data, request.reqType = .update data) →
      request.key ∉ keysOf x) :
    SetSpec (request.key, request.reqType) (keysOf x) done (keysOf (x.setSrv s srv)) := by
  have hne : ∀ k, k ≠ request.key → (k ∈ keysOf (x.setSrv s srv) ↔ k ∈ keysOf x) := by
    intro k hk
    rw [mem_keysOf_setSrv, hothers k hk, ← mem_keysOf_iff]
  have hsame : (srv.Holds request.key ↔ (x.srv s).Holds request.key) →
      keysOf (x.setSrv s srv) = keysOf x := by
    intro hkey
    apply keysOf_setSrv
    intro k
    by_cases hk : k = request.key
    · exact hk ▸ hkey
    · exact hothers k hk
  cases h with
  | created data htype hkey hkey' =>
      have hnot : request.key ∉ keysOf x := fun hmem =>
        (mem_keysOf_iff.mp hmem).elim hkey (halone (Or.inl (by simp [isCreate, htype])))
      have hnew : keysOf (x.setSrv s srv) = insert request.key (keysOf x) := by
        ext k
        by_cases hk : k = request.key
        · subst hk
          exact iff_of_true (mem_keysOf_setSrv.mpr (Or.inl hkey')) (Set.mem_insert _ _)
        · rw [hne k hk, Set.mem_insert_iff, or_iff_right hk]
      rw [htype, hnew]
      exact ⟨iff_of_true rfl hnot, rfl⟩
  | «exists» data htype hkey hkey' =>
      rw [htype, hsame (iff_of_true hkey' hkey)]
      have hmem : request.key ∈ keysOf x := ⟨s, hkey⟩
      exact ⟨by simpa using hmem, (Set.insert_eq_of_mem hmem).symm⟩
  | deleted htype hkey hkey' =>
      have hdelete : ¬ ∃ w, w ≠ s ∧ (x.srv w).Holds request.key :=
        halone (Or.inr (by simp [isDelete, htype]))
      have hnew : keysOf (x.setSrv s srv) = keysOf x \ {request.key} := by
        ext k
        by_cases hk : k = request.key
        · subst hk
          refine iff_of_false (fun hmem => ?_) (fun hmem => hmem.2 rfl)
          exact (mem_keysOf_setSrv.mp hmem).elim hkey' hdelete
        · rw [hne k hk, Set.mem_sdiff, Set.mem_singleton_iff, and_iff_left hk]
      rw [htype, hnew]
      exact ⟨iff_of_true rfl ⟨s, hkey⟩, rfl⟩
  | missing htype hkey hkey' =>
      have hnot : request.key ∉ keysOf x := fun hmem =>
        (mem_keysOf_iff.mp hmem).elim hkey (halone (Or.inr (by simp [isDelete, htype])))
      rw [htype, hsame (iff_of_false hkey' hkey)]
      exact ⟨by simpa using hnot, (Set.sdiff_singleton_eq_self hnot).symm⟩
  | read htype hkey hkey' =>
      rw [htype, hsame (iff_of_true hkey' hkey)]
      exact ⟨iff_of_true rfl ⟨s, hkey⟩, rfl⟩
  | updated data htype hkey hkey' =>
      rw [htype, hsame (iff_of_true hkey' hkey)]
      exact ⟨iff_of_true rfl ⟨s, hkey⟩, rfl⟩
  | notUpdated data htype hkey =>
      have hnot := hupdate rfl ⟨data, htype⟩
      rw [htype, hsame hkey]
      exact ⟨by simpa using hnot, rfl⟩

section Steps

variable [NeZero nb] {hash : Key → Fin n} {h : Handover.State (Fin nb) (Fin n)}
  {x y : State n nb A C} {l : Label nb C}

/-- The keys, the names and the transfers are in order. -/
structure HandInv (hash : Key → Fin n) (h : Handover.State (Fin nb) (Fin n))
    (x : State n nb A C) : Prop where
  inv : Handover.Inv h
  rep : Represents x h
  named : NamedInv hash x
  key : ∀ s, KeyInv hash h x.log.live s (x.srv s)

theorem HandInv.apart (hand : HandInv hash h x) (s : Fin nb) : (x.srv s).Apart :=
  apart_of_open hand.rep hand.inv (hand.key s).changing (hand.key s).drained

theorem HandInv.sound (hand : HandInv hash h x) (s : Fin nb) : (x.srv s).Sound :=
  State.sound_of_has fun k => ((hand.key s).key k).imp fun _ hspot => hspot.1

/-- No other server has anything of a key that is being created or deleted. -/
theorem HandInv.alone_of_change (hand : HandInv hash h x) {s : Fin nb}
    {request : Request n} (hmem : request ∈ (x.srv s).main.change) :
    ¬ ∃ w, w ≠ s ∧ (x.srv w).Holds request.key := by
  rintro ⟨w, hw, hholds⟩
  have hindex := (hand.named.srv s).index_of_change hmem
  have hholder := ((hand.key s).changing _ ⟨request, hmem, hindex⟩).holder
  obtain ⟨spot, has, haway, _⟩ := (hand.key w).key request.key
  rw [haway (by rw [← hholder]; exact hw)] at has
  exact has.holds_iff.mp hholds

/-- A storage operation is an operation on the set of keys, where an update that finds no
file is for a key that no server has. -/
theorem HandInv.setSpec_of_storage (hand : HandInv hash h x) {s : Fin nb}
    {c : C} {request : Request n} (hmain : (x.srv s).main = .storage c request)
    {store : Store} {done : Bool} {getValue : Option Data}
    (hstore : storageOperation (x.srv s).store request = .returned store done getValue)
    (hfinds : ∀ k ∈ missedUpdate (x.srv s), ∀ w, ¬ (x.srv w).Holds k) :
    SetSpec (request.key, request.reqType) (keysOf x) done
      (keysOf (x.setSrv s { x.srv s with
        store := store
        main := .preSend c request done getValue })) := by
  obtain ⟨spot, has, _⟩ := (hand.key s).key request.key
  apply setSpec_of_effect
  · exact effect_of_storage (hand.named.srv s) (hand.apart s) hmain has hstore
  · exact fun k hk => holds_of_ne (stored_of_storageOperation hstore) _ hk
  · intro hchange
    apply hand.alone_of_change
    exact Main.mem_change.mpr ⟨by rw [hmain]; rfl, hchange, by rw [hmain]; rfl⟩
  · rintro rfl ⟨data, htype⟩ ⟨w, hholds⟩
    refine hfinds request.key ?_ w hholds
    obtain ⟨key, reqType, index, entryVersion⟩ := request
    change reqType = .update data at htype
    subst htype
    cases hvalue : (x.srv s).store key with
    | none => simp [missedUpdate, hmain, hvalue]
    | some old => simp [storageOperation, genericUpdate, hvalue] at hstore

variable [Eacl A n] [DecidableEq C]

/-- Only a storage operation makes a key come or go. -/
theorem keysOf_step (hand : HandInv hash h x) (halone : DrainsAlone l x)
    (hstep : Step hash x l y)
    (hl : ∀ s c request, l = .server s .main → (x.srv s).main ≠ .storage c request) :
    keysOf y = keysOf x := by
  cases hstep with
  | server s l srv hs =>
      apply keysOf_setSrv
      intro k
      obtain ⟨spot, has, _⟩ := (hand.key s).key k
      have hmain : srv.main.created = (x.srv s).main.created ∧
          srv.main.deleted = (x.srv s).main.deleted := by
        cases hs with
        | storage client request store done getValue hmain hstore =>
            exact absurd hmain (hl s client request rfl)
        | incrAccess client request hmain =>
            rw [hmain]
            exact ⟨rfl, rfl⟩
        | crash l hnull =>
            -- the threads of a transfer follow no null pointer
            obtain rfl := (hand.key s).grasped.nullPointer hnull
            obtain ⟨client, request, hmain, _⟩ := hnull
            exact absurd hmain (hl s client request rfl)
        | _ => exact ⟨rfl, rfl⟩
      exact hs.holds_iff (hand.named.srv s) (hand.apart s) (hand.sound s) halone
        (hand.key s).grasped.nullPointer has hmain.1 hmain.2
  | takePacket w s sender left packet hw hwire => exact keysOf_takePacket hw hwire
  | replyPacket w source sender entry left hw =>
      have hreply : ∀ (srv : Server.State n nb A C),
          srv.listener = .transfer sender (.reply source entry left) → ∀ k,
          Server.State.Holds { srv with listener := .transfer sender (.recv left) } k ↔
            srv.Holds k := by
        intro srv hsrv k
        simp [Server.State.Holds, hsrv]
      have hl : ((x.setSrv source { x.srv source with ack := true }).srv w).listener = _ :=
        listener_setSrv hw rfl
      exact (keysOf_setSrv (hreply _ hl)).trans (keysOf_setSrv fun _ => Iff.rfl)
  | sendAsk epoch hp => exact keysOf_congr fun _ _ => Iff.rfl
  | sendMlt hp => exact keysOf_congr fun _ _ => Iff.rfl
  | answer s c request done getValue hmain =>
      apply keysOf_setSrv
      intro k
      simp only [Server.State.Holds, (hand.apart s).putting_answer hmain]
  | recvHelp s epoch push hp hpush => exact keysOf_setSrv fun _ => Iff.rfl
  | discardEacl s id sai loadLvl push hp hpush => exact keysOf_setSrv fun _ => Iff.rfl
  | discardHelp s epoch nbRcv push hp hrcv hpush => exact keysOf_setSrv fun _ => Iff.rfl
  | recvEacl s id sai loadLvl nbRcv push hp hrcv hpush => exact keysOf_setSrv fun _ => Iff.rfl
  | accept s c request hc hmain haccept => exact keysOf_setSrv fun _ => Iff.rfl
  | usrHandler2 | manager | refuse | clientSend | clientRecv => rfl

end Steps

/-! ## What the clients see -/

/-- The calls of the clients with what came of them. -/
abbrev KeyEvent (C : Type) := Event C (Key × ReqType) Bool

/-- The client sends a request, or processes the reply. -/
def recordEvents (l : Label nb C) (x _y : State n nb A C) (events : List (KeyEvent C)) :
    List (KeyEvent C) :=
  match l with
  | .clientSend c key reqType => events ++ [.call c (key, reqType)]
  | .clientRecv c =>
      match (x.client c).point with
      | .replied (.done _) => events ++ [.answer c true]
      | .replied .aborted => events ++ [.answer c false]
      | .replied _ => events ++ [.refusal c]
      | _ => events
  | _ => events

/-- What a client that waits can say of its request. -/
def waitsOf (client : Client.State n nb) : Option (Status (Key × ReqType) Bool → Prop) :=
  match client.point with
  | .idle => some (· = .idle)
  | .sent _ request => some (· = .called (request.key, request.reqType))
  | .served => none
  | .replied (.done _) => some (· = .decided true)
  | .replied .aborted => some (· = .decided false)
  | .replied _ => some fun status => ∃ o, status = .called o

/-- The client that the main loop works for, and how far it is. -/
def deskOf (srv : Server.State n nb A C) : Option (C × Status (Key × ReqType) Bool) :=
  match srv.main with
  | .recv => none
  | .incrAccess client request => some (client, .called (request.key, request.reqType))
  | .storage client request => some (client, .called (request.key, request.reqType))
  | .preSend client _ done _ => some (client, .decided done)
  | .crashed => none

/-- The atomic set of keys goes along with the system. -/
def Simulates [DecidableEq C] (x : State n nb A C) (events : List (KeyEvent C))
    (st : Linear.State C (Key × ReqType) Bool (Set Key)) : Prop :=
  Explains (keysOf x) events (waitsOf ∘ x.client) (deskOf ∘ x.srv) st

theorem deskOf_setSrv (x : State n nb A C) (s : Fin nb) (srv : Server.State n nb A C) :
    deskOf ∘ (x.setSrv s srv).srv = Function.update (deskOf ∘ x.srv) s (deskOf srv) :=
  Function.comp_update _ _ _ _

/-- A server goes on and not with its request. -/
theorem deskOf_setSrv_of_main {x : State n nb A C} {s : Fin nb} {srv : Server.State n nb A C}
    (h : srv.main = (x.srv s).main) : deskOf ∘ (x.setSrv s srv).srv = deskOf ∘ x.srv := by
  have hdesk : deskOf srv = (deskOf ∘ x.srv) s := by
    rw [deskOf, h]
    rfl
  rw [deskOf_setSrv, hdesk, Function.update_eq_self]

theorem simulates_init [Eacl A n] [NeZero nb] [DecidableEq C] :
    Simulates (init n nb A C) [] (Linear.init C (Key × ReqType) Bool ∅) where
  obj := by
    symm
    apply Set.eq_empty_of_forall_notMem
    rintro k ⟨s, hs⟩
    simp [init, Server.State.init, Server.State.Holds, namesOf] at hs
  events := rfl
  waiting := by
    intro c Q hc
    cases hc
    rfl
  served := by
    intro s c status hc
    cases hc
  unique := by
    intro s w c status status' hc
    cases hc

section Runs

variable [Eacl A n] [DecidableEq C] [NeZero nb] {hash : Key → Fin n}
  {h : Handover.State (Fin nb) (Fin n)} {x y : State n nb A C} {l : Label nb C}

omit [Eacl A n] [DecidableEq C] in
/-- A request is answered `done` if the storage operation has been done. -/
theorem HandInv.reply_of_done (hand : HandInv hash h x) {s : Fin nb}
    {c : C} {request : Request n} {done : Bool} {getValue : Option Data}
    (hmain : (x.srv s).main = .preSend c request done getValue) :
    (replyOf request ((x.srv s).inChargeMd request.index) done getValue : Reply n nb) =
      if done then .done getValue else .aborted := by
  cases done with
  | false => rfl
  | true =>
      have hpre : (distributionPreSend ((x.srv s).inChargeMd request.index) request true).2 =
          true := by
        cases htype : request.reqType with
        | delete =>
            -- the name is in the list as long as the request is not answered
            have hindex := (hand.named.srv s).request request (by
              rw [hmain]
              rfl)
            obtain ⟨spot, has, _⟩ := (hand.key s).key request.key
            have hspot : spot = .deleted := has.deleted.mp (by
              rw [hmain]
              exact deleted_preSend.mpr ⟨rfl, by simp [isDelete, htype], rfl⟩)
            have hmem : request.key ∈ (x.srv s).inChargeMd request.index := by
              rw [← List.count_pos_iff, hindex, has.listed, hspot]
              simp
            simp [distributionPreSend, htype, mdEntrySearchMdName_eq, hmem]
        | _ => simp [distributionPreSend, htype]
      simp [replyOf, hpre]

omit [Eacl A n] [NeZero nb] in
/-- A step that is not seen. -/
theorem Simulates.unseen (spec : Key × ReqType → Set Key → Bool → Set Key → Prop)
    {events : List (KeyEvent C)} {st : Linear.State C (Key × ReqType) Bool (Set Key)}
    (sim : Simulates x events st) (hclient : y.client = x.client)
    (hdesk : deskOf ∘ y.srv = deskOf ∘ x.srv) (hkeys : keysOf y = keysOf x) :
    ∃ st', (st' = st ∨ Linear.Step spec st st') ∧ Simulates y events st' :=
  ⟨st, Or.inl rfl, sim.congr hkeys (by rw [hclient]) hdesk⟩

/-- A step of a server is the operation of its main loop on the storage, or the end of the
process, or is not seen. -/
theorem simulates_server (spec : Key × ReqType → Set Key → Bool → Set Key → Prop)
    (hand : HandInv hash h x) {s : Fin nb} {srv : Server.State n nb A C} {l : Server.Label}
    (halone : DrainsAlone (.server s l) x) (hs : Server.Step s (x.srv s) l srv)
    (hstorage : ∀ c request store done getValue, (x.srv s).main = .storage c request →
      storageOperation (x.srv s).store request = .returned store done getValue →
      l = .main → spec (request.key, request.reqType) (keysOf x) done
        (keysOf (x.setSrv s { x.srv s with
          store := store
          main := .preSend c request done getValue })))
    {events : List (KeyEvent C)} {st : Linear.State C (Key × ReqType) Bool (Set Key)}
    (sim : Simulates x events st) :
    ∃ st', (st' = st ∨ Linear.Step spec st st') ∧ Simulates (x.setSrv s srv) events st' := by
  have hkeys := keysOf_step hand halone (Step.server s l srv hs)
  cases hs with
  | incrAccess client request hmain =>
      have hdesk : (deskOf ∘ x.srv) s =
          some (client, .called (request.key, request.reqType)) := by
        simp [deskOf, hmain]
      refine sim.unseen spec rfl ?_ (hkeys ?_)
      · rw [deskOf_setSrv]
        exact Function.update_eq_self_iff.mpr hdesk.symm
      · intro w c request' hl
        cases hl
        rw [hmain]
        simp
  | storage client request store done getValue hmain hstore =>
      have hdesk : (deskOf ∘ x.srv) s =
          some (client, .called (request.key, request.reqType)) := by
        simp [deskOf, hmain]
      obtain ⟨st', hnext, hpoint⟩ :=
        sim.point hdesk (hstorage client request store done getValue hmain hstore rfl)
      exact ⟨st', Or.inr hnext, hpoint.congr rfl rfl (deskOf_setSrv _ _ _)⟩
  | crash l hnull =>
      obtain rfl := (hand.key s).grasped.nullPointer hnull
      refine ⟨st, Or.inl rfl, (sim.drop s).congr ?_ rfl (deskOf_setSrv _ _ _)⟩
      exact keysOf_setSrv fun _ => Iff.rfl
  | _ =>
      refine sim.unseen spec rfl (deskOf_setSrv_of_main rfl) (hkeys ?_)
      intro s c request hl
      cases hl

omit [Eacl A n] [DecidableEq C] [NeZero nb] in
/-- A client that gets a refusal still has its request. -/
theorem waitsOf_refused (client : Client.State n nb) {table : Table.Mlt n (Fin nb)}
    {request : Request n} {reply : Reply n nb}
    (hrefuse : distributionPostReceive table request = .refused reply) :
    waitsOf { client with point := .replied reply } =
      some fun status => ∃ o, status = .called o := by
  unfold distributionPostReceive at hrefuse
  split at hrefuse
  · cases hrefuse
    rfl
  · split at hrefuse <;> cases hrefuse
    rfl

omit [Eacl A n] [NeZero nb] in
theorem waitsOf_setClient (x : State n nb A C) (c : C) (client : Client.State n nb) :
    waitsOf ∘ (x.setClient c client).client =
      Function.update (waitsOf ∘ x.client) c (waitsOf client) :=
  Function.comp_update _ _ _ _

omit [Eacl A n] [NeZero nb] in
/-- A client hears the answer to its request, or that it is refused. -/
theorem simulates_clientRecv (spec : Key × ReqType → Set Key → Bool → Set Key → Prop)
    {c : C} {reply : Reply n nb} (hc : (x.client c).point = .replied reply)
    {client : Client.State n nb} (hidle : waitsOf client = some (· = .idle))
    {events : List (KeyEvent C)} {st : Linear.State C (Key × ReqType) Bool (Set Key)}
    (sim : Simulates x events st) :
    ∃ st', (st' = st ∨ Linear.Step spec st st') ∧
      Simulates (x.setClient c client) (recordEvents (.clientRecv c) x y events) st' := by
  have hwaits : waitsOf ∘ (x.setClient c client).client =
      Function.update (waitsOf ∘ x.client) c (some (· = .idle)) := by
    rw [waitsOf_setClient, hidle]
  have hanswer : ∀ o, waitsOf (x.client c) = some (· = .decided o) →
      ∃ st', (st' = st ∨ Linear.Step spec st st') ∧
        Simulates (x.setClient c client) (events ++ [.answer c o]) st' := by
    intro o hreplied
    obtain ⟨st', hnext, hanswer⟩ := sim.answer spec hreplied (fun _ h => h) (· = .idle) rfl
    exact ⟨st', Or.inr hnext, hanswer.congr rfl hwaits rfl⟩
  have hrefusal : waitsOf (x.client c) = (some fun status => ∃ o, status = .called o) →
      ∃ st', (st' = st ∨ Linear.Step spec st st') ∧
        Simulates (x.setClient c client) (events ++ [.refusal c]) st' := by
    intro hreplied
    obtain ⟨st', hnext, hrefusal⟩ := sim.refusal spec hreplied (fun _ h => h) (· = .idle) rfl
    exact ⟨st', Or.inr hnext, hrefusal.congr rfl hwaits rfl⟩
  cases reply with
  | done getValue =>
      rw [recordEvents, hc]
      exact hanswer true (by simp [waitsOf, hc])
  | aborted =>
      rw [recordEvents, hc]
      exact hanswer false (by simp [waitsOf, hc])
  | updateRetry | waitRetry =>
      rw [recordEvents, hc]
      exact hrefusal (by simp [waitsOf, hc])

/-- A step of the system is an operation on the set of keys, a call or the end of one, or
is not seen. -/
theorem simulates_step (spec : Key × ReqType → Set Key → Bool → Set Key → Prop)
    (hand : HandInv hash h x) (halone : DrainsAlone l x) (hstep : Step hash x l y)
    (hstorage : ∀ s c request store done getValue, (x.srv s).main = .storage c request →
      storageOperation (x.srv s).store request = .returned store done getValue →
      l = .server s .main → spec (request.key, request.reqType) (keysOf x) done
        (keysOf (x.setSrv s { x.srv s with
          store := store
          main := .preSend c request done getValue })))
    {events : List (KeyEvent C)} {st : Linear.State C (Key × ReqType) Bool (Set Key)}
    (sim : Simulates x events st) :
    ∃ st', (st' = st ∨ Linear.Step spec st st') ∧
      Simulates y (recordEvents l x y events) st' := by
  have hkeys := keysOf_step hand halone hstep
  cases hstep with
  | server s l srv hs =>
      refine simulates_server spec hand halone hs ?_ sim
      intro c request store done getValue hmain hstore hl
      exact hstorage s c request store done getValue hmain hstore (congrArg _ hl)
  | takePacket w s sender left packet hw hwire =>
      refine sim.unseen spec rfl ?_ (hkeys fun _ _ _ hl => by cases hl)
      have htaken : deskOf ∘ (x.setSrv s { x.srv s with wire := none }).srv = deskOf ∘ x.srv :=
        deskOf_setSrv_of_main rfl
      refine Eq.trans ?_ htaken
      exact deskOf_setSrv_of_main rfl
  | replyPacket w source sender entry left hw =>
      refine sim.unseen spec rfl ?_ (hkeys fun _ _ _ hl => by cases hl)
      have hacked : deskOf ∘ (x.setSrv source { x.srv source with ack := true }).srv =
          deskOf ∘ x.srv := deskOf_setSrv_of_main rfl
      refine Eq.trans ?_ hacked
      exact deskOf_setSrv_of_main rfl
  | accept s c request hc hmain haccept =>
      have hsent : (waitsOf ∘ x.client) c =
          some (· = .called (request.key, request.reqType)) := by
        simp [waitsOf, hc]
      refine ⟨st, Or.inl rfl, (sim.take hsent s fun _ h => h).congr ?_ ?_ ?_⟩
      · exact hkeys fun _ _ _ hl => by cases hl
      · exact waitsOf_setClient x c _
      · exact deskOf_setSrv _ _ _
  | refuse s c request reply hc hmain hrefuse =>
      have hsent : (waitsOf ∘ x.client) c =
          some (· = .called (request.key, request.reqType)) := by
        simp [waitsOf, hc]
      refine ⟨st, Or.inl rfl, (sim.turn hsent
        (fun status => ∃ o, status = .called o) ?_).congr rfl ?_ rfl⟩
      · exact fun status h => ⟨_, h⟩
      · exact (waitsOf_setClient x c _).trans (by rw [waitsOf_refused _ hrefuse])
  | answer s c request done getValue hmain =>
      have hdesk : (deskOf ∘ x.srv) s = some (c, .decided done) := by
        simp [deskOf, hmain]
      have hreply : waitsOf { x.client c with
          point := .replied (replyOf request ((x.srv s).inChargeMd request.index) done getValue) } =
          some (· = .decided done) := by
        rw [hand.reply_of_done hmain]
        cases done <;> rfl
      refine ⟨st, Or.inl rfl, (sim.back hdesk (· = .decided done) rfl).congr
        ?_ ?_ ?_⟩
      · exact hkeys fun _ _ _ hl => by cases hl
      · exact (waitsOf_setClient x c _).trans (by rw [hreply])
      · exact deskOf_setSrv _ _ _
  | clientSend c key reqType hc =>
      have hidle : (waitsOf ∘ x.client) c = some (· = .idle) := by simp [waitsOf, hc]
      obtain ⟨st', hnext, hcall⟩ :=
        sim.call spec hidle (fun _ h => h) (key, reqType) (· = .called (key, reqType)) rfl
      exact ⟨st', Or.inr hnext, hcall.congr rfl (waitsOf_setClient x c _) rfl⟩
  | clientRecv c reply hc => exact simulates_clientRecv spec hc rfl sim
  | sendAsk epoch hp =>
      exact sim.unseen spec rfl rfl (hkeys fun _ _ _ hl => by cases hl)
  | sendMlt hp => exact sim.unseen spec rfl rfl (hkeys fun _ _ _ hl => by cases hl)
  | usrHandler2 | manager => exact sim.unseen spec rfl rfl rfl
  | _ =>
      exact sim.unseen spec rfl (deskOf_setSrv_of_main rfl) (hkeys fun _ _ _ hl => by cases hl)

end Runs

end MeDiE.System
