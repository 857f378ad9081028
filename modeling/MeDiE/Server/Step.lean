import MeDiE.Server.Listener
import MeDiE.Server.Requests
import MeDiE.Verified.Transition

/-!
# The steps a server takes by itself

`step` puts the threads and the handlers together.  `Step` says the same case by
case, with the state before and after; what is proved about servers is proved by
cases of it.
-/

namespace MeDiE.Server

open MeDiE.Storage
open MeDiE.Table
open MeDiE.Verified.Transition

variable {n nb : Nat} {A C : Type} [Eacl A n]

/-- Who moves. -/
inductive Label
  | usr2
  | handler (i : Nat)
  | listener
  | sender
  | receiver
  | main

/-- A step of a handler or a thread of server `s`. -/
def threadStep (s : Fin nb) (srv : State n nb A C) : Label → Option (State n nb A C)
  | .usr2 => none
  | .handler i => handlerStep srv i
  | .listener => listenerStep s srv
  | .sender =>
      match srv.listener with
      | .transfer sender receiver => senderStep srv sender receiver
      | _ => none
  | .receiver =>
      match srv.listener with
      | .transfer sender receiver => receiverStep srv sender receiver
      | _ => none
  | .main => mainStep srv

/-- A step of server `s` without another party.  Nothing is seen of a signal that comes
when the process has ended. -/
def step (s : Fin nb) (srv : State n nb A C) : Label → Option (State n nb A C)
  | .usr2 => some (usr2Handler srv)
  | l => if srv.main.alive = true then threadStep s srv l else none

/-- Where a null pointer is followed: `get_value` of a key without a file, and the first
name of a list that has become empty. -/
inductive NullPointer (srv : State n nb A C) : Label → Prop
  | getValue (client : C) (request : Request n) (hmain : srv.main = .storage client request)
      (hstore : storageOperation srv.store request = .nullString) : NullPointer srv .main
  | pop (server : Fin nb) (toSend : List (Fin nb × Fin n)) (packet : Packing n)
      (receiver : LoadReceiver n nb)
      (hl : srv.listener = .transfer (.pop server toSend packet) receiver)
      (hnil : srv.inChargeMd packet.entry = []) : NullPointer srv .sender
  | put (sender : LoadSender n nb) (source : Fin nb) (entry : Fin n) (mdNames : List Key)
      (left : Nat) (hl : srv.listener = .transfer sender (.put source entry mdNames left))
      (hnil : srv.inChargeMd entry = []) : NullPointer srv .receiver

/-- The cases of `calculateStep`. -/
inductive Calculate (accessList : A) : Handler n → A → Handler n → Prop
  | clearLoad : Calculate accessList .calculateSai (Eacl.clearLoad accessList) (.loadSai 0)
  | loadSai (i : Fin n) :
      Calculate accessList (.loadSai i) accessList
        (.loadCount i (Eacl.oldIndex accessList i))
  | loadCount (i : Fin n) (old : Nat) :
      Calculate accessList (.loadCount i old) accessList
        (.storeSai i ((old + Eacl.accessCount accessList i) / 2))
  | storeSai (i : Fin n) (value : Nat) :
      Calculate accessList (.storeSai i value) (Eacl.setSai accessList i value) (.addLoad i)
  | addLoad (i : Fin n) :
      Calculate accessList (.addLoad i) (Eacl.addLoad accessList i) (.loadSai (i + 1))
  | done (i : Nat) (hi : n ≤ i) : Calculate accessList (.loadSai i) accessList .setEaclEpoch

theorem calculateStep_cases {accessList accessList' : A} {h h' : Handler n}
    (heq : calculateStep accessList h = some (accessList', h')) :
    Calculate accessList h accessList' h' := by
  unfold calculateStep at heq
  split at heq
  · cases heq
    exact Calculate.clearLoad
  · split at heq
    · cases heq
      exact Calculate.loadSai ⟨_, ‹_›⟩
    · cases heq
      exact Calculate.done _ (Nat.le_of_not_lt ‹_›)
  · cases heq
    exact Calculate.loadCount _ _
  · cases heq
    exact Calculate.storeSai _ _
  · cases heq
    exact Calculate.addLoad _
  · cases heq

/-- The cases of `step`. -/
inductive Step (s : Fin nb) (srv : State n nb A C) : Label → State n nb A C → Prop
  | usr2 : Step s srv .usr2 (usr2Handler srv)
  | calculateSai (i : Nat) (h h' : Handler n) (accessList : A)
      (hi : srv.handlers[i]? = some h) (hnext : Calculate srv.accessList h accessList h') :
      Step s srv (.handler i)
        { srv with
          accessList := accessList
          handlers := srv.handlers.set i h' }
  | setEaclEpoch (i : Nat) (hi : srv.handlers[i]? = some .setEaclEpoch) :
      Step s srv (.handler i)
        { srv with
          eaclEpoch := srv.epoch
          handlers := srv.handlers.set i .resetAccess }
  | resetAccess (i : Nat) (hi : srv.handlers[i]? = some .resetAccess) :
      Step s srv (.handler i)
        { srv with
          accessList := Eacl.resetAccess srv.accessList
          handlers := srv.handlers.set i .threshold }
  | threshold (i : Nat) (hi : srv.handlers[i]? = some .threshold) :
      Step s srv (.handler i)
        { srv with
          handlers := srv.handlers.set i
            (.askRebalancing (thresholdMax srv.meanLoad) (thresholdMin srv.meanLoad)) }
  | noRebalancing (i max min : Nat)
      (hi : srv.handlers[i]? = some (.askRebalancing max min))
      (hload : Eacl.readLoadLvl srv.accessList ≤ max ∧ min ≤ Eacl.readLoadLvl srv.accessList) :
      Step s srv (.handler i) { srv with handlers := srv.handlers.eraseIdx i }
  | askRebalancing (i max min : Nat)
      (hi : srv.handlers[i]? = some (.askRebalancing max min))
      (hload : ¬ (Eacl.readLoadLvl srv.accessList ≤ max ∧
        min ≤ Eacl.readLoadLvl srv.accessList)) :
      Step s srv (.handler i)
        { srv with
          handlers := srv.handlers.eraseIdx i
          push := srv.push ++ [.help srv.epoch] }
  | recvAsk (epochNeeded : Nat) (sub : List (FromManager n nb))
      (hl : srv.listener = .recv) (hsub : srv.sub = .ask epochNeeded :: sub) :
      Step s srv .listener
        { srv with
          sub := sub
          listener := .checkEpoch epochNeeded }
  | recvMlt (tempMlt : MltPacket n nb) (sub : List (FromManager n nb))
      (hl : srv.listener = .recv) (hsub : srv.sub = .mlt tempMlt :: sub) :
      Step s srv .listener
        { srv with
          sub := sub
          meanLoad := tempMlt.meanLoad
          listener := .updateMlt tempMlt 0 ⟨[], []⟩ }
  | oldEpoch (epochNeeded : Nat) (hl : srv.listener = .checkEpoch epochNeeded)
      (hepoch : epochNeeded < srv.eaclEpoch) :
      Step s srv .listener { srv with listener := .recv }
  | newEpoch (epochNeeded : Nat) (hl : srv.listener = .checkEpoch epochNeeded)
      (hepoch : srv.eaclEpoch ≤ epochNeeded) :
      Step s srv .listener { srv with listener := .waitEpoch epochNeeded }
  | epochReached (epochNeeded : Nat) (hl : srv.listener = .waitEpoch epochNeeded)
      (hepoch : epochNeeded ≤ srv.eaclEpoch) :
      Step s srv .listener { srv with listener := .readSai }
  | readSai (hl : srv.listener = .readSai) :
      Step s srv .listener { srv with listener := .sendEacl (Eacl.sai srv.accessList) }
  | sendEacl (sai : Fin n → Nat) (hl : srv.listener = .sendEacl sai) :
      Step s srv .listener
        { srv with
          push := srv.push ++ [.eacl s sai (Eacl.readLoadLvl srv.accessList)]
          listener := .recv }
  | updateRow (tempMlt : MltPacket n nb) (i : Fin n) (plan : Plan n nb)
      (hl : srv.listener = .updateMlt tempMlt i plan) :
      Step s srv .listener
        { srv with
          table := (updateRow s tempMlt i srv.table plan).1
          listener := .updateMlt tempMlt (i + 1)
            (updateRow s tempMlt i srv.table plan).2 }
  | launch (tempMlt : MltPacket n nb) (i : Nat) (plan : Plan n nb)
      (toSend : List (Fin nb × Fin n))
      (hl : srv.listener = .updateMlt tempMlt i plan) (hi : n ≤ i)
      (hsort : sortToSend plan.toSend = some toSend) :
      Step s srv .listener
        { srv with
          listener := .transfer (.next toSend) (.recv plan.toReceive.length)
          plans := srv.plans ++ [plan] }
  | join (sender : LoadSender n nb) (receiver : LoadReceiver n nb)
      (hl : srv.listener = .transfer sender receiver)
      (hsender : sender.exited = true) (hreceiver : receiver.exited = true) :
      Step s srv .listener { srv with listener := .recv }
  | sendEnd (receiver : LoadReceiver n nb)
      (hl : srv.listener = .transfer (.next []) receiver) :
      Step s srv .sender { srv with listener := .transfer .finished receiver }
  | sendNext (server : Fin nb) (entry : Fin n) (toSend : List (Fin nb × Fin n))
      (receiver : LoadReceiver n nb)
      (hl : srv.listener = .transfer (.next ((server, entry) :: toSend)) receiver) :
      Step s srv .sender
        { srv with
          listener := .transfer (.drain server toSend (Packing.start entry)) receiver }
  | drainEnd (server : Fin nb) (toSend : List (Fin nb × Fin n)) (packet : Packing n)
      (receiver : LoadReceiver n nb)
      (hl : srv.listener = .transfer (.drain server toSend packet) receiver)
      (hnil : srv.inChargeMd packet.entry = []) :
      Step s srv .sender { srv with listener := .transfer (.send server toSend packet) receiver }
  | drainNext (server : Fin nb) (toSend : List (Fin nb × Fin n)) (packet : Packing n)
      (receiver : LoadReceiver n nb)
      (hl : srv.listener = .transfer (.drain server toSend packet) receiver)
      (hne : srv.inChargeMd packet.entry ≠ []) :
      Step s srv .sender { srv with listener := .transfer (.pop server toSend packet) receiver }
  | pop (server : Fin nb) (toSend : List (Fin nb × Fin n)) (packet : Packing n)
      (receiver : LoadReceiver n nb) (mdName : Key) (head : List Key)
      (hl : srv.listener = .transfer (.pop server toSend packet) receiver)
      (hpop : srv.inChargeMd packet.entry = mdName :: head) :
      Step s srv .sender
        { srv with
          inChargeMd := Function.update srv.inChargeMd packet.entry head
          listener := .transfer (.del server toSend packet mdName) receiver }
  | del (server : Fin nb) (toSend : List (Fin nb × Fin n)) (packet : Packing n)
      (receiver : LoadReceiver n nb) (mdName : Key)
      (hl : srv.listener = .transfer (.del server toSend packet mdName) receiver)
      (hstore : srv.store mdName ≠ none) :
      Step s srv .sender
        { srv with
          store := Function.update srv.store mdName none
          listener := .transfer (.drain server toSend (packet.append mdName)) receiver }
  | delFailed (server : Fin nb) (toSend : List (Fin nb × Fin n)) (packet : Packing n)
      (receiver : LoadReceiver n nb) (mdName : Key)
      (hl : srv.listener = .transfer (.del server toSend packet mdName) receiver)
      (hstore : srv.store mdName = none) :
      Step s srv .sender { srv with listener := .transfer .failed receiver }
  | send (server : Fin nb) (toSend : List (Fin nb × Fin n)) (packet : Packing n)
      (receiver : LoadReceiver n nb)
      (hl : srv.listener = .transfer (.send server toSend packet) receiver) :
      Step s srv .sender
        { srv with
          wire := some (server, packet.finish)
          listener := .transfer (.updateState packet.entry toSend) receiver }
  | sentState (entry : Fin n) (toSend : List (Fin nb × Fin n))
      (receiver : LoadReceiver n nb)
      (hl : srv.listener = .transfer (.updateState entry toSend) receiver) :
      Step s srv .sender
        { srv with
          table := srv.table.updateState entry false
          listener := .transfer (.resetEacl entry toSend) receiver }
  | sentEacl (entry : Fin n) (toSend : List (Fin nb × Fin n))
      (receiver : LoadReceiver n nb)
      (hl : srv.listener = .transfer (.resetEacl entry toSend) receiver) :
      Step s srv .sender
        { srv with
          accessList := Eacl.resetAllEntry srv.accessList entry
          listener := .transfer (.recvAck entry toSend) receiver }
  | recvAck (entry : Fin n) (toSend : List (Fin nb × Fin n))
      (receiver : LoadReceiver n nb)
      (hl : srv.listener = .transfer (.recvAck entry toSend) receiver)
      (hack : srv.ack = true) :
      Step s srv .sender
        { srv with
          ack := false
          listener := .transfer (.next toSend) receiver }
  | recvEnd (sender : LoadSender n nb) (hl : srv.listener = .transfer sender (.recv 0)) :
      Step s srv .receiver { srv with listener := .transfer sender .finished }
  | unpackEnd (sender : LoadSender n nb) (source : Fin nb) (entry : Fin n) (left : Nat)
      (hl : srv.listener = .transfer sender (.unpack source entry [] left)) :
      Step s srv .receiver
        { srv with listener := .transfer sender (.updateState source entry left) }
  | unpackNext (sender : LoadSender n nb) (source : Fin nb) (entry : Fin n) (mdName : Key)
      (mdNames : List Key) (left : Nat)
      (hl : srv.listener = .transfer sender (.unpack source entry (mdName :: mdNames) left)) :
      Step s srv .receiver
        { srv with
          inChargeMd := Function.update srv.inChargeMd entry
            (mdName :: srv.inChargeMd entry)
          listener := .transfer sender (.put source entry mdNames left) }
  | put (sender : LoadSender n nb) (source : Fin nb) (entry : Fin n)
      (mdNames : List Key) (left : Nat) (mdName : Key) (head : List Key)
      (hl : srv.listener = .transfer sender (.put source entry mdNames left))
      (hhead : srv.inChargeMd entry = mdName :: head) (hstore : srv.store mdName = none) :
      Step s srv .receiver
        { srv with
          store := Function.update srv.store mdName (some aWord)
          listener := .transfer sender (.unpack source entry mdNames left) }
  | putFailed (sender : LoadSender n nb) (source : Fin nb) (entry : Fin n)
      (mdNames : List Key) (left : Nat) (mdName : Key) (head : List Key)
      (hl : srv.listener = .transfer sender (.put source entry mdNames left))
      (hhead : srv.inChargeMd entry = mdName :: head) (hstore : srv.store mdName ≠ none) :
      Step s srv .receiver { srv with listener := .transfer sender .failed }
  | receivedState (sender : LoadSender n nb) (source : Fin nb) (entry : Fin n) (left : Nat)
      (hl : srv.listener = .transfer sender (.updateState source entry left)) :
      Step s srv .receiver
        { srv with
          table := srv.table.updateState entry false
          listener := .transfer sender (.resetEacl source entry left) }
  | receivedEacl (sender : LoadSender n nb) (source : Fin nb) (entry : Fin n) (left : Nat)
      (hl : srv.listener = .transfer sender (.resetEacl source entry left)) :
      Step s srv .receiver
        { srv with
          accessList := Eacl.resetAllEntry srv.accessList entry
          listener := .transfer sender (.reply source entry left) }
  | incrAccess (client : C) (request : Request n)
      (hmain : srv.main = .incrAccess client request) :
      Step s srv .main
        { srv with
          accessList := Eacl.incrAccess srv.accessList request.index
          main := .storage client request }
  | storage (client : C) (request : Request n) (store : Store) (done : Bool)
      (getValue : Option Data) (hmain : srv.main = .storage client request)
      (hstore : storageOperation srv.store request = .returned store done getValue) :
      Step s srv .main
        { srv with
          store := store
          main := .preSend client request done getValue }
  | crash (l : Label) (hnull : NullPointer srv l) : Step s srv l srv.crash

private theorem step_of_handler {s : Fin nb} {srv srv' : State n nb A C} {i : Nat}
    (h : handlerStep srv i = some srv') : Step s srv (.handler i) srv' := by
  unfold handlerStep at h
  split at h
  · cases h
  · cases h
    exact Step.setEaclEpoch i ‹_›
  · cases h
    exact Step.resetAccess i ‹_›
  · cases h
    exact Step.threshold i ‹_›
  · rename_i max min hi
    dsimp only at h
    split at h
    · cases h
      exact Step.noRebalancing i max min hi ‹_›
    · cases h
      exact Step.askRebalancing i max min hi ‹_›
  · obtain ⟨⟨accessList, next⟩, hnext, rfl⟩ := Option.map_eq_some_iff.mp h
    exact Step.calculateSai i _ next accessList ‹_› (calculateStep_cases hnext)

private theorem step_of_listener {s : Fin nb} {srv srv' : State n nb A C}
    (h : listenerStep s srv = some srv') : Step s srv .listener srv' := by
  unfold listenerStep at h
  split at h
  · rename_i hl
    split at h
    · cases h
    · cases h
      exact Step.recvAsk _ _ hl ‹_›
    · cases h
      exact Step.recvMlt _ _ hl ‹_›
  · rename_i k hl
    split at h
    · cases h
      exact Step.oldEpoch k hl ‹_›
    · cases h
      exact Step.newEpoch k hl (Nat.le_of_not_lt ‹_›)
  · rename_i k hl
    split at h
    · cases h
    · cases h
      exact Step.epochReached k hl (Nat.le_of_not_lt ‹_›)
  · cases h
    exact Step.readSai ‹_›
  · cases h
    exact Step.sendEacl _ ‹_›
  · rename_i tempMlt i plan hl
    split at h
    · rename_i hi
      cases h
      exact Step.updateRow tempMlt ⟨i, hi⟩ plan hl
    · split at h
      · cases h
      · cases h
        exact Step.launch tempMlt i plan _ hl (Nat.le_of_not_lt ‹_›) ‹_›
  · rename_i sender receiver hl
    split at h
    · rename_i hexit
      rw [Bool.and_eq_true] at hexit
      cases h
      exact Step.join sender receiver hl hexit.1 hexit.2
    · cases h

private theorem step_of_sender {s : Fin nb} {srv srv' : State n nb A C}
    {sender : LoadSender n nb} {receiver : LoadReceiver n nb}
    (hl : srv.listener = .transfer sender receiver)
    (h : senderStep srv sender receiver = some srv') : Step s srv .sender srv' := by
  unfold senderStep at h
  split at h
  · cases h
    exact Step.sendEnd receiver hl
  · cases h
    exact Step.sendNext _ _ _ receiver hl
  · split at h
    · cases h
      exact Step.drainEnd _ _ _ receiver hl ‹_›
    · rename_i hcons
      cases h
      exact Step.drainNext _ _ _ receiver hl (by simp [hcons])
  · split at h
    · rename_i hpop
      cases h
      unfold mdEntryPop at hpop
      split at hpop
      · exact Step.crash _ (.pop _ _ _ receiver hl ‹_›)
      · cases hpop
    · rename_i hpop
      cases h
      unfold mdEntryPop at hpop
      split at hpop
      · cases hpop
      · cases hpop
        exact Step.pop _ _ _ receiver _ _ hl ‹_›
  · rename_i server toSend packet mdName
    split at h
    · rename_i hdel
      cases h
      apply Step.delFailed server toSend packet receiver mdName hl
      rw [genericDel] at hdel
      split at hdel
      · cases hdel
      · assumption
    · rename_i hdel
      obtain ⟨hstore, heq⟩ := genericDel_eq_some.mp hdel
      cases h
      rw [heq]
      exact Step.del server toSend packet receiver mdName hl hstore
  · cases h
    exact Step.send _ _ _ receiver hl
  · cases h
    exact Step.sentState _ _ receiver hl
  · cases h
    exact Step.sentEacl _ _ receiver hl
  · split at h
    · cases h
      exact Step.recvAck _ _ receiver hl ‹_›
    · cases h
  · cases h
  · cases h

private theorem step_of_receiver {s : Fin nb} {srv srv' : State n nb A C}
    {sender : LoadSender n nb} {receiver : LoadReceiver n nb}
    (hl : srv.listener = .transfer sender receiver)
    (h : receiverStep srv sender receiver = some srv') : Step s srv .receiver srv' := by
  unfold receiverStep at h
  split at h
  · cases h
    exact Step.recvEnd sender hl
  · cases h
  · cases h
    exact Step.unpackEnd sender _ _ _ hl
  · cases h
    exact Step.unpackNext sender _ _ _ _ _ hl
  · split at h
    · cases h
      exact Step.crash _ (.put sender _ _ _ _ hl ‹_›)
    · rename_i hhead
      split at h
      · rename_i hput
        cases h
        apply Step.putFailed sender _ _ _ _ _ _ hl hhead
        rw [genericPut] at hput
        split at hput
        · simp [*]
        · cases hput
      · rename_i hput
        obtain ⟨hstore, heq⟩ := genericPut_eq_some.mp hput
        cases h
        rw [heq]
        exact Step.put sender _ _ _ _ _ _ hl hhead hstore
  · cases h
    exact Step.receivedState sender _ _ _ hl
  · cases h
    exact Step.receivedEacl sender _ _ _ hl
  · cases h
  · cases h
  · cases h

/-- Only a process that is there goes on. -/
theorem threadStep_of_step {s : Fin nb} {srv srv' : State n nb A C} {l : Label}
    (hl : l ≠ .usr2) (h : step s srv l = some srv') : threadStep s srv l = some srv' := by
  cases l with
  | usr2 => exact absurd rfl hl
  | _ => exact (Option.ite_none_right_eq_some.mp h).2

theorem step_of_alive {s : Fin nb} {srv : State n nb A C} (halive : srv.main.alive = true)
    {l : Label} (hl : l ≠ .usr2) : step s srv l = threadStep s srv l := by
  cases l with
  | usr2 => exact absurd rfl hl
  | _ => exact if_pos halive

/-- `Step` covers everything a server does by itself. -/
theorem step_cases {s : Fin nb} {srv srv' : State n nb A C} {l : Label}
    (h : step s srv l = some srv') : Step s srv l srv' := by
  cases l with
  | usr2 =>
      cases h
      exact Step.usr2
  | handler i => exact step_of_handler (threadStep_of_step (by simp) h)
  | listener => exact step_of_listener (threadStep_of_step (by simp) h)
  | sender =>
      replace h := threadStep_of_step (by simp) h
      rw [threadStep] at h
      split at h
      · exact step_of_sender ‹_› h
      · cases h
  | receiver =>
      replace h := threadStep_of_step (by simp) h
      rw [threadStep] at h
      split at h
      · exact step_of_receiver ‹_› h
      · cases h
  | main =>
      replace h := threadStep_of_step (by simp) h
      change mainStep srv = some srv' at h
      unfold mainStep at h
      split at h
      · cases h
        exact Step.incrAccess _ _ ‹_›
      · split at h
        · cases h
          exact Step.storage _ _ _ _ _ ‹_› ‹_›
        · cases h
          exact Step.crash _ (.getValue _ _ ‹_› ‹_›)
        · cases h
      · cases h
      · cases h
      · cases h

/-! ## `eacl_calculate_sai` undisturbed -/

/-- Handler `i` is at the point, and the access list is as it has left it. -/
def State.handlerAt (srv : State n nb A C) (i : Nat) (accessList : A) (h : Handler n) :
    State n nb A C :=
  { srv with
    accessList := accessList
    handlers := srv.handlers.set i h }

theorem handlerStep_of_calculateStep (srv : State n nb A C) {i : Nat}
    (hi : i < srv.handlers.length) {a a' : A} {h h' : Handler n}
    (heq : calculateStep a h = some (a', h')) :
    handlerStep (srv.handlerAt i a h) i = some (srv.handlerAt i a' h') := by
  have hat : (srv.handlerAt i a h).handlers[i]? = some h := by
    simp [State.handlerAt, hi]
  have hstep : handlerStep (srv.handlerAt i a h) i = (calculateStep a h).map fun p =>
      { srv.handlerAt i a h with
        accessList := p.1
        handlers := (srv.handlerAt i a h).handlers.set i p.2 } := by
    rw [handlerStep, hat]
    cases h <;> first | rfl | cases heq
  rw [hstep, heq]
  simp [State.handlerAt]

/-- The loop from entry `j` on. -/
theorem reach_loop (srv : State n nb A C) {i : Nat} (hi : i < srv.handlers.length)
    {init : State n nb A C} {j : Nat} (hj : j ≤ n) {a : A}
    (hx : Reach init (fun x y => handlerStep x i = some y) (srv.handlerAt i a (.loadSai j))) :
    Reach init (fun x y => handlerStep x i = some y)
      (srv.handlerAt i
        (((List.finRange n).drop j).foldl
          (fun a e =>
            Eacl.addLoad (Eacl.setSai a e ((Eacl.oldIndex a e + Eacl.accessCount a e) / 2)) e) a)
        .setEaclEpoch) := by
  induction hk : n - j generalizing j a with
  | zero =>
      obtain rfl : j = n := by omega
      rw [List.drop_eq_nil_of_le (by simp)]
      exact hx.next (handlerStep_of_calculateStep srv hi (by simp [calculateStep]))
  | succ k ih =>
      have hlt : j < n := by omega
      rw [List.drop_eq_getElem_cons (by simpa using hlt), List.foldl_cons, List.getElem_finRange]
      refine ih hlt ?_ (by omega)
      have hcount := hx.next (handlerStep_of_calculateStep srv hi (dif_pos hlt))
      have hstore := hcount.next (handlerStep_of_calculateStep srv hi rfl)
      have hadd := hstore.next (handlerStep_of_calculateStep srv hi rfl)
      exact hadd.next (handlerStep_of_calculateStep srv hi rfl)

/-- A handler that nothing disturbs does in its steps what `eacl_calculate_sai` says. -/
theorem reach_calculateSai (srv : State n nb A C) {i : Nat}
    (hi : srv.handlers[i]? = some .calculateSai) :
    Reach srv (fun x y => handlerStep x i = some y)
      { srv with
        accessList := Eacl.calculateSai srv.accessList
        handlers := srv.handlers.set i .setEaclEpoch } := by
  obtain ⟨hlt, hget⟩ := List.getElem?_eq_some_iff.mp hi
  have hstart : srv = srv.handlerAt i srv.accessList .calculateSai := by
    have hset : srv.handlers.set i .calculateSai = srv.handlers := by
      rw [← hget, List.set_getElem_self]
    rw [State.handlerAt, hset]
  have hclear : Reach srv (fun x y => handlerStep x i = some y)
      (srv.handlerAt i (Eacl.clearLoad srv.accessList) (.loadSai 0)) := by
    have hstep := handlerStep_of_calculateStep srv hlt (a := srv.accessList)
      (h := .calculateSai) rfl
    rw [← hstart] at hstep
    exact Reach.start.next hstep
  have hloop := reach_loop srv hlt (Nat.zero_le n) hclear
  rw [List.drop_zero, ← Eacl.calculateSai_eq] at hloop
  exact hloop

end MeDiE.Server
