import MeDiE.Server.Sequential

/-!
# From one list of names to the other

`thread_load_sender` empties the list of an entry into a packet and
`thread_load_receiver` fills the list of another server from it.  The two loops are
taken here as a whole.  They are connected to the threads below: as long as only the
thread itself goes on, its steps lead from the start of the loop to its end.

An element of a list is labelled with its entry.  Only the receiver writes labels and
no function reads them, so the rest of the model does without them.
-/

namespace MeDiE.Server

open MeDiE.Storage

variable {n nb : Nat} {A C : Type} [Eacl A n]

/-! ## Labelled elements -/

/-- `struct md_entry`, but for the link. -/
structure MdEntry (n : Nat) where
  entry : Fin n
  mdName : Key

/-- `md_entry_init`. -/
def mdEntryInit (entry : Fin n) (name : Key) : MdEntry n where
  entry := entry
  mdName := name

/-- The loop of `thread_load_receiver` over the names of a packet.  The name of the file
is read back from the head of the list. -/
def unpackEntries (entry : Fin n) :
    List Key → List (MdEntry n) → Store → List (MdEntry n) × Store × Bool
  | [], head, store => (head, store, true)
  | mdName :: mdNames, head, store =>
      match mdEntryInsert head (mdEntryInit entry mdName) with
      | [] => ([], store, false)
      | first :: next =>
          match genericPut store first.mdName aWord with
          | none => (first :: next, store, false)
          | some store => unpackEntries entry mdNames (first :: next) store

/-- Without the labels it is the loop over names. -/
theorem unpackEntries_names (entry : Fin n) (mdNames : List Key) (head : List (MdEntry n))
    (store : Store) :
    ((unpackEntries entry mdNames head store).1.map MdEntry.mdName,
      (unpackEntries entry mdNames head store).2) =
      unpackNames mdNames (head.map MdEntry.mdName) store := by
  induction mdNames generalizing head store with
  | nil => rfl
  | cons mdName mdNames ih =>
      simp only [unpackEntries, unpackNames, mdEntryInsert, mdEntryInit]
      cases genericPut store mdName aWord with
      | none => rfl
      | some store => exact ih _ store

/-- Names that are not stored are put in front one by one, under the label of the packet. -/
theorem unpackEntries_of_new (entry : Fin n) (mdNames : List Key) (head : List (MdEntry n))
    (store : Store) (hnodup : mdNames.Nodup) (hnew : ∀ key ∈ mdNames, store key = none) :
    ∃ store', unpackEntries entry mdNames head store =
        ((mdNames.map (mdEntryInit entry)).reverse ++ head, store', true) ∧
      ∀ key, store' key = if key ∈ mdNames then some aWord else store key := by
  induction mdNames generalizing head store with
  | nil => exact ⟨store, rfl, by simp⟩
  | cons mdName mdNames ih =>
      obtain ⟨hnot, hnodup⟩ := List.nodup_cons.mp hnodup
      have hput : genericPut store mdName aWord =
          some (Function.update store mdName (some aWord)) :=
        genericPut_eq_some.mpr ⟨hnew mdName List.mem_cons_self, rfl⟩
      have hrest : ∀ key ∈ mdNames, Function.update store mdName (some aWord) key = none := by
        intro key hkey
        have hne : key ≠ mdName := fun heq => hnot (heq ▸ hkey)
        rw [Function.update_of_ne hne]
        exact hnew key (List.mem_cons_of_mem _ hkey)
      obtain ⟨store', hunpack, hstore'⟩ := ih (mdEntryInit entry mdName :: head)
        (Function.update store mdName (some aWord)) hnodup hrest
      refine ⟨store', ?_, ?_⟩
      · simp only [unpackEntries, mdEntryInsert, mdEntryInit, hput]
        rw [List.map_cons, List.reverse_cons, List.append_assoc]
        exact hunpack
      · intro key
        rw [hstore']
        by_cases heq : key = mdName
        · subst heq
          simp
        · simp [heq]

/-! ## The string of a packet -/

/-- The names, each after a comma. -/
def joined (names : List Key) : List Char := names.flatMap fun name => ',' :: name.chars

/-- What is packed of a list whose names are all stored, once each. -/
theorem mdNames_drainEntry (head : List Key) (store : Store) (packet : Packing n)
    (h : (drainEntry head store packet).2.2.2 = true) :
    (drainEntry head store packet).2.2.1.mdNames = packet.mdNames ++ joined head := by
  induction head generalizing store packet with
  | nil => simp [drainEntry, joined]
  | cons mdName head ih =>
      rw [drainEntry] at h ⊢
      cases hdel : genericDel store mdName with
      | none => simp [hdel] at h
      | some store' =>
          simp only [hdel] at h ⊢
          rw [ih _ _ h]
          simp [joined, Packing.append]

/-- Let the names of the sender's list be distinct, let it store all of them, and the
receiver none.  Then the whole list is packed.  The receiver of the packet gets its names,
in reverse order and in front of its own, labels them with the entry and stores each of
them, and the announced length is that of the string with its terminator. -/
theorem receiver_gets_list (e : Fin n) (sender : LocalData n)
    (hnodup : (sender.inChargeMd e).Nodup)
    (hstored : ∀ key ∈ sender.inChargeMd e, sender.store key ≠ none)
    (head : List (MdEntry n)) (store : Store)
    (hnew : ∀ key ∈ sender.inChargeMd e, store key = none) :
    ∃ store' packing, drainEntry (sender.inChargeMd e) sender.store (Packing.start e) =
        ([], store', packing, true) ∧
      packing.finish.entry = e ∧
      packing.finish.mdNames = joined (sender.inChargeMd e) ∧
      packing.finish.mdNamesLength = (joined (sender.inChargeMd e)).length + 1 ∧
      ∃ received, unpackEntries packing.finish.entry packing.finish.names head store =
          (((sender.inChargeMd e).map (mdEntryInit e)).reverse ++ head, received, true) ∧
        ∀ key, received key =
          if key ∈ sender.inChargeMd e then some aWord else store key := by
  obtain ⟨store', packing, hdrain, _, hentry, hnames⟩ := drainEntry_of_stored
    (sender.inChargeMd e) sender.store (Packing.start e) hnodup hstored
  have hjoined : packing.mdNames = joined (sender.inChargeMd e) := by
    have hstring := mdNames_drainEntry (sender.inChargeMd e) sender.store (Packing.start e)
    rw [hdrain] at hstring
    exact hstring rfl
  have hlist : packing.finish.names = sender.inChargeMd e := by
    rw [names_finish, hnames, strtok_start]
    rfl
  refine ⟨store', packing, hdrain, hentry, hjoined, ?_, ?_⟩
  · rw [packing.finish.length_eq]
    show packing.mdNames.length + 1 = _
    rw [hjoined]
  · rw [hlist, show packing.finish.entry = e from hentry]
    exact unpackEntries_of_new e (sender.inChargeMd e) head store hnodup hnew

/-- Two keys travel to a server that has another one. -/
theorem receiver_gets_list_two :
    ∃ c : Key, ∃ sender : LocalData 1, ∃ store' packing,
      drainEntry (sender.inChargeMd 0) sender.store (Packing.start (0 : Fin 1)) =
          ([], store', packing, true) ∧
        packing.finish.entry = 0 ∧
        packing.finish.mdNames = joined (sender.inChargeMd 0) ∧
        packing.finish.mdNamesLength = (joined (sender.inChargeMd 0)).length + 1 ∧
        ∃ received, unpackEntries packing.finish.entry packing.finish.names
            [mdEntryInit 0 c] (fun key => if key = c then some aWord else none) =
            (((sender.inChargeMd 0).map (mdEntryInit 0)).reverse ++ [mdEntryInit 0 c],
              received, true) ∧
          ∀ key, received key = if key ∈ sender.inChargeMd 0 then some aWord
            else if key = c then some aWord else none := by
  let a : Key := ⟨['a'], by decide, by decide⟩
  let b : Key := ⟨['b'], by decide, by decide⟩
  let c : Key := ⟨['c'], by decide, by decide⟩
  let sender : LocalData 1 :=
    { inChargeMd := fun _ => [a, b]
      store := fun key => if key = a ∨ key = b then some aWord else none }
  have hgets := receiver_gets_list 0 sender (by decide) (by decide) [mdEntryInit 0 c]
    (fun key => if key = c then some aWord else none) (by decide)
  exact ⟨c, sender, hgets⟩

/-! ## The loops in the threads -/

/-- The sender goes on. -/
def SenderMoves (srv srv' : State n nb A C) : Prop :=
  ∃ sender receiver, srv.listener = .transfer sender receiver ∧
    senderStep srv sender receiver = some srv'

/-- The receiver goes on. -/
def ReceiverMoves (srv srv' : State n nb A C) : Prop :=
  ∃ sender receiver, srv.listener = .transfer sender receiver ∧
    receiverStep srv sender receiver = some srv'

/-- The packing loop leads the sender to its `zmsg_send`, or to its end. -/
theorem sender_runs_drainEntry (head : List Key) (srv : State n nb A C) (server : Fin nb)
    (toSend : List (Fin nb × Fin n)) (packet : Packing n) (receiver : LoadReceiver n nb)
    (hl : srv.listener = .transfer (.drain server toSend packet) receiver)
    (hlist : srv.inChargeMd packet.entry = head) :
    Relation.ReflTransGen SenderMoves srv
      { srv with
        inChargeMd := Function.update srv.inChargeMd packet.entry
          (drainEntry head srv.store packet).1
        store := (drainEntry head srv.store packet).2.1
        listener := .transfer
          (if (drainEntry head srv.store packet).2.2.2
            then .send server toSend (drainEntry head srv.store packet).2.2.1 else .failed)
          receiver } := by
  induction head generalizing srv packet with
  | nil =>
      apply Relation.ReflTransGen.single
      refine ⟨_, _, hl, ?_⟩
      have hsame : Function.update srv.inChargeMd packet.entry [] = srv.inChargeMd := by
        rw [← hlist, Function.update_eq_self]
      simp only [senderStep, hlist, drainEntry, hsame, if_true]
  | cons mdName head ih =>
      let popped : State n nb A C :=
        { srv with
          inChargeMd := Function.update srv.inChargeMd packet.entry head
          listener := .transfer (.del server toSend packet mdName) receiver }
      let popping : State n nb A C :=
        { srv with listener := .transfer (.pop server toSend packet) receiver }
      have hpopping : SenderMoves srv popping :=
        ⟨_, _, hl, by simp only [senderStep, hlist, popping]⟩
      have hpop : SenderMoves popping popped :=
        ⟨_, _, rfl, by simp only [senderStep, popping, hlist, mdEntryPop, popped]⟩
      have hpopped : Relation.ReflTransGen SenderMoves srv popped :=
        Relation.ReflTransGen.head hpopping (Relation.ReflTransGen.single hpop)
      rw [drainEntry]
      cases hdel : genericDel srv.store mdName with
      | none =>
          apply hpopped.tail
          refine ⟨_, _, rfl, ?_⟩
          simp only [senderStep, popped, hdel, Bool.false_eq_true, if_false]
      | some store =>
          let deleted : State n nb A C :=
            { popped with
              store := store
              listener := .transfer (.drain server toSend (packet.append mdName)) receiver }
          have hdeleted : SenderMoves popped deleted :=
            ⟨_, _, rfl, by simp only [senderStep, popped, hdel, deleted]⟩
          have hrest := ih deleted (packet.append mdName) rfl (Function.update_self _ _ _)
          have hidem : Function.update (Function.update srv.inChargeMd packet.entry head)
              packet.entry (drainEntry head store (packet.append mdName)).1 =
              Function.update srv.inChargeMd packet.entry
                (drainEntry head store (packet.append mdName)).1 :=
            Function.update_idem _ _ _
          refine hpopped.trans (Relation.ReflTransGen.head hdeleted ?_)
          show Relation.ReflTransGen SenderMoves deleted _
          simp only
          rw [← hidem]
          exact hrest

/-- The unpacking loop leads the receiver to its `mlt_update_state`, or to its end. -/
theorem receiver_runs_unpackNames (mdNames : List Key) (srv : State n nb A C)
    (source : Fin nb) (entry : Fin n) (left : Nat) (sender : LoadSender n nb)
    (hl : srv.listener = .transfer sender (.unpack source entry mdNames left)) :
    Relation.ReflTransGen ReceiverMoves srv
      { srv with
        inChargeMd := Function.update srv.inChargeMd entry
          (unpackNames mdNames (srv.inChargeMd entry) srv.store).1
        store := (unpackNames mdNames (srv.inChargeMd entry) srv.store).2.1
        listener := .transfer sender
          (if (unpackNames mdNames (srv.inChargeMd entry) srv.store).2.2
            then .updateState source entry left else .failed) } := by
  induction mdNames generalizing srv with
  | nil =>
      apply Relation.ReflTransGen.single
      refine ⟨_, _, hl, ?_⟩
      simp only [receiverStep, unpackNames, Function.update_eq_self, if_true]
  | cons mdName mdNames ih =>
      let inserted : State n nb A C :=
        { srv with
          inChargeMd := Function.update srv.inChargeMd entry
            (mdEntryInsert (srv.inChargeMd entry) mdName)
          listener := .transfer sender (.put source entry mdNames left) }
      have hinserted : ReceiverMoves srv inserted := ⟨_, _, hl, rfl⟩
      have hhead : inserted.inChargeMd entry = mdName :: srv.inChargeMd entry :=
        Function.update_self _ _ _
      apply Relation.ReflTransGen.head hinserted
      rw [unpackNames]
      cases hput : genericPut srv.store mdName aWord with
      | none =>
          apply Relation.ReflTransGen.single
          refine ⟨_, _, rfl, ?_⟩
          simp only [receiverStep, hhead]
          simp only [inserted, hput, mdEntryInsert, Bool.false_eq_true, if_false]
      | some store =>
          let stored : State n nb A C :=
            { inserted with
              store := store
              listener := .transfer sender (.unpack source entry mdNames left) }
          have hstored : ReceiverMoves inserted stored := by
            refine ⟨_, _, rfl, ?_⟩
            simp only [receiverStep, hhead]
            simp only [inserted, hput, stored]
          have hrest := ih stored rfl
          rw [show stored.inChargeMd entry = mdEntryInsert (srv.inChargeMd entry) mdName from
            Function.update_self _ _ _] at hrest
          have hidem : Function.update stored.inChargeMd entry
              (unpackNames mdNames (mdEntryInsert (srv.inChargeMd entry) mdName) store).1 =
              Function.update srv.inChargeMd entry
                (unpackNames mdNames (mdEntryInsert (srv.inChargeMd entry) mdName) store).1 :=
            Function.update_idem _ _ _
          apply Relation.ReflTransGen.head hstored
          simp only
          rw [← hidem]
          exact hrest

end MeDiE.Server
