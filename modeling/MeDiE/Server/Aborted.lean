import MeDiE.Server.Sequential

/-!
# A transfer that is given up

`thread_load_sender` takes the names of an entry out of the list and removes their files
before it sends anything, and it ends without putting them back when a file cannot be
removed or the packet cannot be sent.  The server goes on without the thread.
-/

namespace MeDiE.Server

open MeDiE.Storage

variable {n : Nat}

/-- The loop of `thread_load_sender` over the names of an entry: the names and the files
that are left, and the packet or the name that `generic_del` has failed for.
`removeFails i` means that removing the file of name `i` fails even if there is one. -/
def drainFaulty (removeFails : Nat → Bool) :
    List Key → Store → Packing n → List Key × Store × Except Key (Packing n)
  | [], store, packet => ([], store, .ok packet)
  | mdName :: head, store, packet =>
      match if removeFails 0 then none else genericDel store mdName with
      | none => (head, store, .error mdName)
      | some store =>
          drainFaulty (fun i => removeFails (i + 1)) head store (packet.append mdName)

/-- How the handling of an entry ends. -/
inductive Outcome (n : Nat)
  | sent (packet : Packet n)
  | delFailed (mdName : Key)
  | sendFailed

/-- The thread has ended without sending the entry. -/
def Outcome.gaveUp : Outcome n → Bool
  | .sent _ => false
  | .delFailed _ => true
  | .sendFailed => true

/-- `thread_load_sender` from the start of a packet to its `zmsg_send`. -/
def handleEntry (removeFails : Nat → Bool) (sendFails : Bool) (data : LocalData n)
    (e : Fin n) : LocalData n × Outcome n :=
  let r := drainFaulty removeFails (data.inChargeMd e) data.store (Packing.start e)
  ({ inChargeMd := Function.update data.inChargeMd e r.1
     store := r.2.1 },
    match r.2.2 with
    | .error mdName => .delFailed mdName
    | .ok packet => if sendFails then .sendFailed else .sent packet.finish)

/-- Without faults it is the loop of a transfer that only a missing file stops. -/
theorem drainFaulty_eq_drainEntry (head : List Key) (store : Store) (packet : Packing n) :
    (drainFaulty (fun _ => false) head store packet).1 = (drainEntry head store packet).1 ∧
      (drainFaulty (fun _ => false) head store packet).2.1 =
        (drainEntry head store packet).2.1 ∧
      ((drainEntry head store packet).2.2.2 = true →
        (drainFaulty (fun _ => false) head store packet).2.2 =
          .ok (drainEntry head store packet).2.2.1) := by
  induction head generalizing store packet with
  | nil => exact ⟨rfl, rfl, fun _ => rfl⟩
  | cons mdName head ih =>
      simp only [drainFaulty, drainEntry, Bool.false_eq_true, if_false]
      cases genericDel store mdName with
      | none => exact ⟨rfl, rfl, fun h => by cases h⟩
      | some store => exact ih store (packet.append mdName)

/-- Every key that was listed and stored is listed and stored still, but for the key whose
missing file the thread has given up at. -/
def KeysKept (e : Fin n) (before after : LocalData n) (outcome : Outcome n) : Prop :=
  ∀ key ∈ before.inChargeMd e, before.store key ≠ none →
    ¬ (outcome = .delFailed key ∧ after.store key = none) →
    key ∈ after.inChargeMd e ∧ after.store key ≠ none

/-- The list is empty, or its first name has no file, or the first name is in the list
again: anywhere if its file cannot be removed, and at once if it can. -/
def StopsAtFirst (removeFails : Nat → Bool) (e : Fin n) (data : LocalData n) : Prop :=
  match data.inChargeMd e with
  | [] => True
  | mdName :: head =>
      data.store mdName = none ∨
        if removeFails 0 then mdName ∈ head else head.head? = some mdName

/-! ## One name -/

theorem drainFaulty_of_missing (removeFails : Nat → Bool) {mdName : Key} (head : List Key)
    {store : Store} (packet : Packing n) (hmissing : store mdName = none) :
    drainFaulty removeFails (mdName :: head) store packet = (head, store, .error mdName) := by
  rw [drainFaulty]
  cases removeFails 0 <;> simp [genericDel, hmissing]

theorem drainFaulty_of_fails {removeFails : Nat → Bool} (mdName : Key) (head : List Key)
    (store : Store) (packet : Packing n) (hfails : removeFails 0 = true) :
    drainFaulty removeFails (mdName :: head) store packet = (head, store, .error mdName) := by
  rw [drainFaulty, if_pos hfails]

theorem drainFaulty_of_stored {removeFails : Nat → Bool} {mdName : Key} (head : List Key)
    {store : Store} (packet : Packing n) (hfails : ¬ removeFails 0 = true)
    (hstored : store mdName ≠ none) :
    drainFaulty removeFails (mdName :: head) store packet =
      drainFaulty (fun i => removeFails (i + 1)) head (Function.update store mdName none)
        (packet.append mdName) := by
  have hdel : genericDel store mdName = some (Function.update store mdName none) :=
    genericDel_eq_some.mpr ⟨hstored, rfl⟩
  rw [drainFaulty, if_neg hfails, hdel]

/-- Files are only removed. -/
theorem drainFaulty_keeps_none (removeFails : Nat → Bool) (head : List Key) {store : Store}
    (packet : Packing n) {key : Key} (hnone : store key = none) :
    (drainFaulty removeFails head store packet).2.1 key = none := by
  induction head generalizing removeFails store packet with
  | nil => exact hnone
  | cons mdName head ih =>
      by_cases hfails : removeFails 0 = true
      · rw [drainFaulty_of_fails mdName head store packet hfails]
        exact hnone
      · by_cases hstored : store mdName = none
        · rw [drainFaulty_of_missing removeFails head packet hstored]
          exact hnone
        · rw [drainFaulty_of_stored head packet hfails hstored]
          apply ih
          by_cases heq : key = mdName
          · rw [heq, Function.update_self]
          · rw [Function.update_of_ne heq]
            exact hnone

/-- A removed name stays out, and only its own missing file can excuse it: the thread must
have given up at a second occurrence, the next name of the list. -/
theorem head_eq_of_excused {removeFails : Nat → Bool} {mdName : Key} {head : List Key}
    {store : Store} (packet : Packing n)
    (hexcused : (drainFaulty removeFails head store packet).2.2 = .error mdName)
    (hkept : ∀ key ∈ head, store key ≠ none → key ≠ mdName →
      (drainFaulty removeFails head store packet).2.1 key ≠ none) :
    head.head? = some mdName := by
  cases head with
  | nil => cases hexcused
  | cons second rest =>
      by_contra hne
      have hsecond : second ≠ mdName := by simpa using hne
      by_cases hfails : removeFails 0 = true
      · rw [drainFaulty_of_fails second rest store packet hfails] at hexcused
        cases hexcused
        exact hsecond rfl
      · by_cases hstored : store second = none
        · rw [drainFaulty_of_missing removeFails rest packet hstored] at hexcused
          cases hexcused
          exact hsecond rfl
        · -- the second name is removed, too, and has no excuse
          apply hkept second List.mem_cons_self hstored hsecond
          rw [drainFaulty_of_stored rest packet hfails hstored]
          exact drainFaulty_keeps_none _ rest _ (Function.update_self _ _ _)

/-! ## The whole list -/

theorem handleEntry_eq_delFailed {removeFails : Nat → Bool} {sendFails : Bool}
    {data : LocalData n} {e : Fin n} {key : Key} :
    (handleEntry removeFails sendFails data e).2 = .delFailed key ↔
      (drainFaulty removeFails (data.inChargeMd e) data.store (Packing.start e)).2.2 =
        .error key := by
  simp only [handleEntry]
  cases (drainFaulty removeFails (data.inChargeMd e) data.store (Packing.start e)).2.2 with
  | error mdName => simp
  | ok packet => cases sendFails <;> simp

/-- `KeysKept`, of the loop. -/
def ListKept (list : List Key) (store : Store)
    (r : List Key × Store × Except Key (Packing n)) : Prop :=
  ∀ key ∈ list, store key ≠ none → ¬ (r.2.2 = .error key ∧ r.2.1 key = none) →
    key ∈ r.1 ∧ r.2.1 key ≠ none

theorem keysKept_iff_listKept (removeFails : Nat → Bool) (sendFails : Bool)
    (data : LocalData n) (e : Fin n) :
    KeysKept e data (handleEntry removeFails sendFails data e).1
        (handleEntry removeFails sendFails data e).2 ↔
      ListKept (data.inChargeMd e) data.store
        (drainFaulty removeFails (data.inChargeMd e) data.store (Packing.start e)) := by
  unfold KeysKept ListKept
  simp only [handleEntry_eq_delFailed]
  simp only [handleEntry, Function.update_self]

theorem listKept_of_fails {removeFails : Nat → Bool} (mdName : Key) (head : List Key)
    (store : Store) (packet : Packing n) (hfails : removeFails 0 = true)
    (hstored : store mdName ≠ none) :
    ListKept (mdName :: head) store
        (drainFaulty removeFails (mdName :: head) store packet) ↔ mdName ∈ head := by
  rw [drainFaulty_of_fails mdName head store packet hfails]
  constructor
  · intro hkept
    exact (hkept mdName List.mem_cons_self hstored fun h => hstored h.2).1
  · intro hmem key hkey hkeyStored _
    refine ⟨?_, hkeyStored⟩
    rcases List.mem_cons.mp hkey with rfl | hkey
    · exact hmem
    · exact hkey

theorem listKept_of_stored {removeFails : Nat → Bool} {mdName : Key} (head : List Key)
    {store : Store} (packet : Packing n) (hfails : ¬ removeFails 0 = true)
    (hstored : store mdName ≠ none) :
    ListKept (mdName :: head) store
        (drainFaulty removeFails (mdName :: head) store packet) ↔
      head.head? = some mdName := by
  rw [drainFaulty_of_stored head packet hfails hstored]
  have hgone : Function.update store mdName none mdName = none := Function.update_self _ _ _
  constructor
  · intro hkept
    have hexcused : (drainFaulty (fun i => removeFails (i + 1)) head
        (Function.update store mdName none) (packet.append mdName)).2.2 = .error mdName := by
      by_contra hnot
      apply (hkept mdName List.mem_cons_self hstored fun h => hnot h.1).2
      exact drainFaulty_keeps_none _ head _ hgone
    apply head_eq_of_excused (packet.append mdName) hexcused
    intro key hkey hkeyStored hne
    rw [Function.update_of_ne hne] at hkeyStored
    apply (hkept key (List.mem_cons_of_mem _ hkey) hkeyStored _).2
    rintro ⟨herror, -⟩
    rw [hexcused] at herror
    cases herror
    exact hne rfl
  · intro hhead
    obtain ⟨rest, rfl⟩ : ∃ rest, head = mdName :: rest := by
      cases head with
      | nil => cases hhead
      | cons second rest =>
          cases hhead
          exact ⟨rest, rfl⟩
    rw [drainFaulty_of_missing _ rest _ hgone]
    intro key hkey hkeyStored hexcuse
    have hne : key ≠ mdName := by
      rintro rfl
      exact hexcuse ⟨rfl, hgone⟩
    refine ⟨by simpa [hne] using hkey, ?_⟩
    show Function.update store mdName none key ≠ none
    rw [Function.update_of_ne hne]
    exact hkeyStored

theorem listKept_of_missing (removeFails : Nat → Bool) {mdName : Key} (head : List Key)
    {store : Store} (packet : Packing n) (hmissing : store mdName = none) :
    ListKept (mdName :: head) store
      (drainFaulty removeFails (mdName :: head) store packet) := by
  rw [drainFaulty_of_missing removeFails head packet hmissing]
  intro key hkey hkeyStored _
  have hne : key ≠ mdName := by
    rintro rfl
    exact hkeyStored hmissing
  exact ⟨by simpa [hne] using hkey, hkeyStored⟩

theorem keysKept_iff_stopsAtFirst (removeFails : Nat → Bool) (sendFails : Bool)
    (data : LocalData n) (e : Fin n) :
    KeysKept e data (handleEntry removeFails sendFails data e).1
        (handleEntry removeFails sendFails data e).2 ↔ StopsAtFirst removeFails e data := by
  rw [keysKept_iff_listKept, StopsAtFirst]
  cases data.inChargeMd e with
  | nil => simp [ListKept]
  | cons mdName head =>
      by_cases hstored : data.store mdName = none
      · simp [hstored, listKept_of_missing removeFails head (Packing.start e) hstored]
      · by_cases hfails : removeFails 0 = true
        · rw [listKept_of_fails mdName head data.store (Packing.start e) hfails hstored]
          simp [hstored, hfails]
        · rw [listKept_of_stored head (Packing.start e) hfails hstored]
          simp [hstored, hfails]

/-- Whatever the lists and the storage are and wherever the calls fail: when the thread
gives an entry up, no key is lost if and only if it stops at the first name, whose file is
missing, or what it has taken out is in the list twice. -/
theorem aborted_keeps_keys_iff (removeFails : Nat → Bool) (sendFails : Bool)
    (data : LocalData n) (e : Fin n) :
    (handleEntry removeFails sendFails data e).2.gaveUp = true →
      (KeysKept e data (handleEntry removeFails sendFails data e).1
          (handleEntry removeFails sendFails data e).2 ↔
        StopsAtFirst removeFails e data) := by
  intro _
  exact keysKept_iff_stopsAtFirst removeFails sendFails data e

/-- A server with one key, which it has a file for. -/
def oneKey : LocalData 1 where
  inChargeMd _ := [⟨['x'], by decide, by decide⟩]
  store _ := some aWord

/-- Its packet is not sent. -/
theorem aborted_keeps_keys_iff_oneKey :
    KeysKept 0 oneKey (handleEntry (fun _ => false) true oneKey 0).1
        (handleEntry (fun _ => false) true oneKey 0).2 ↔
      StopsAtFirst (fun _ => false) 0 oneKey :=
  aborted_keeps_keys_iff (fun _ => false) true oneKey 0 (by decide)

/-- The key is neither listed nor stored any more. -/
theorem exists_lost_key :
    ¬ ∀ (removeFails : Nat → Bool) (sendFails : Bool) (data : LocalData 1) (e : Fin 1),
      (handleEntry removeFails sendFails data e).2.gaveUp = true →
      KeysKept e data (handleEntry removeFails sendFails data e).1
        (handleEntry removeFails sendFails data e).2 := by
  intro h
  have hkept := h (fun _ => false) true oneKey 0 (by decide) ⟨['x'], by decide, by decide⟩
    (by decide) (by decide) (by simp [handleEntry, drainFaulty, oneKey, genericDel])
  revert hkept
  decide

end MeDiE.Server
