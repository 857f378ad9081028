import MeDiE.Server.Drains

/-!
# The work that a transfer still is

A server that has a table on its hands has so many rows, entries and names left to deal
with.  `rounds` counts the rows and entries, `names` the names of the entry in hand; with
every step of its threads one of them goes down, `rounds` first.  The steps of the rest of
the server leave both alone, except that a request for the entry that is being sent may
still add a name to it, so such a request counts as work, too.
-/

namespace MeDiE.Server

open MeDiE.Storage
open MeDiE.System

variable {n nb : Nat} {A C : Type}

/-! ## What is left -/

/-- The steps that a sender has left, but for those that depend on the names. -/
@[simp] def LoadSender.rounds : LoadSender n nb → Nat
  | .next toSend => 6 * toSend.length + 1
  | .drain _ toSend _ => 6 * toSend.length + 6
  | .pop _ toSend _ => 6 * toSend.length + 6
  | .del _ toSend _ _ => 6 * toSend.length + 6
  | .send _ toSend _ => 6 * toSend.length + 5
  | .updateState _ toSend => 6 * toSend.length + 4
  | .resetEacl _ toSend => 6 * toSend.length + 3
  | .recvAck _ toSend => 6 * toSend.length + 2
  | .finished => 0
  | .failed => 0

@[simp] def LoadReceiver.rounds : LoadReceiver n nb → Nat
  | .recv left => 5 * left + 1
  | .unpack _ _ _ left => 5 * left + 5
  | .put _ _ _ left => 5 * left + 5
  | .updateState _ _ left => 5 * left + 4
  | .resetEacl _ _ left => 5 * left + 3
  | .reply _ _ left => 5 * left + 2
  | .finished => 0
  | .failed => 0

/-- A table that is still on the socket counts as much as one whose rows are all to come,
and a transfer that has not begun as one of all entries both ways. -/
def State.rounds (srv : State n nb A C) : Nat :=
  match srv.listener with
  | .updateMlt _ i _ => (n - i) + (11 * n + 4)
  | .transfer sender receiver => sender.rounds + receiver.rounds + 1
  | _ => if pendingMlts srv.sub = [] then 0 else n + (11 * n + 5)

theorem rounds_of_transfer {srv : State n nb A C} {sender : LoadSender n nb}
    {receiver : LoadReceiver n nb} (hl : srv.listener = .transfer sender receiver) :
    srv.rounds = sender.rounds + receiver.rounds + 1 := by
  rw [State.rounds, hl]

/-- What the request of the main loop may still do to the list of the entry. -/
def Main.weight (main : Main n C) (e : Fin n) : Nat :=
  match main with
  | .recv => 0
  | .incrAccess _ request => if request.index = e then 6 else 0
  | .storage _ request => if request.index = e then 5 else 0
  | .preSend _ request _ _ => if request.index = e then 4 else 0
  | .crashed => 0

@[simp] def LoadSender.names (inChargeMd : Fin n → List Key) (main : Main n C) :
    LoadSender n nb → Nat
  | .drain _ _ packet => 3 * (inChargeMd packet.entry).length + main.weight packet.entry + 2
  | .pop _ _ packet => 3 * (inChargeMd packet.entry).length + main.weight packet.entry + 1
  | .del _ _ packet _ => 3 * (inChargeMd packet.entry).length + main.weight packet.entry + 3
  | .send _ _ packet => main.weight packet.entry
  | _ => 0

@[simp] def LoadReceiver.names : LoadReceiver n nb → Nat
  | .unpack _ _ mdNames _ => 2 * mdNames.length + 1
  | .put _ _ mdNames _ => 2 * mdNames.length + 2
  | _ => 0

def State.names (srv : State n nb A C) : Nat :=
  match srv.listener with
  | .transfer sender receiver => sender.names srv.inChargeMd srv.main + receiver.names
  | _ => 0

/-- There is less left. -/
def Less (srv' srv : State n nb A C) : Prop :=
  srv'.rounds < srv.rounds ∨ srv'.rounds = srv.rounds ∧ srv'.names < srv.names

/-! ## What goes on by itself -/

/-- The main loop has a request for the entry that is being sent. -/
def State.Waited (srv : State n nb A C) : Prop :=
  ∃ request ∈ srv.main.request, srv.listener.draining = some request.index

/-- The listener is taking over a table. -/
def Listener.Busy : Listener n nb → Prop
  | .updateMlt _ _ _ => True
  | .transfer _ _ => True
  | _ => False

/-- The sender need not wait for anybody. -/
def LoadSender.Ready (ack : Bool) : LoadSender n nb → Prop
  | .recvAck _ _ => ack = true
  | .finished => False
  | .failed => False
  | _ => True

/-- The receiver need not wait for anybody. -/
def LoadReceiver.Ready : LoadReceiver n nb → Prop
  | .recv left => left = 0
  | .reply _ _ _ => False
  | .finished => False
  | .failed => False
  | _ => True

/-- The steps that get a transfer on.  A sender is to wait for a request in its way. -/
def Helpful (srv : State n nb A C) : Label → Prop
  | .listener =>
      match srv.listener with
      | .updateMlt _ _ _ => True
      | .transfer sender receiver => sender.exited = true ∧ receiver.exited = true
      | _ => pendingMlts srv.sub ≠ []
  | .sender => ∃ sender receiver, srv.listener = .transfer sender receiver ∧
      sender.Ready srv.ack ∧ ¬ srv.Waited
  | .receiver => ∃ sender receiver, srv.listener = .transfer sender receiver ∧ receiver.Ready
  | .main => srv.Waited ∧ ∀ c request done value, srv.main ≠ .preSend c request done value
  | .usr2 => False
  | .handler _ => False

/-- Nothing has happened to the transfer of a server. -/
structure Still (srv srv' : State n nb A C) : Prop where
  rounds : srv'.rounds = srv.rounds
  names : srv'.names = srv.names
  sub : pendingMlts srv'.sub = pendingMlts srv.sub
  listener : srv'.listener = srv.listener ∨ ¬ srv.listener.Busy ∧ ¬ srv'.listener.Busy
  main : srv'.main = srv.main ∨ ¬ srv.Waited ∧ ¬ srv'.Waited
  wire : srv'.wire = srv.wire
  ack : srv'.ack = srv.ack

theorem Still.refl (srv : State n nb A C) : Still srv srv :=
  ⟨rfl, rfl, rfl, Or.inl rfl, Or.inl rfl, rfl, rfl⟩

/-- The parts that a transfer does not look at change. -/
theorem Still.of_eq {srv srv' : State n nb A C} (hlistener : srv'.listener = srv.listener)
    (hsub : pendingMlts srv'.sub = pendingMlts srv.sub)
    (hlisted : srv'.inChargeMd = srv.inChargeMd) (hmain : srv'.main = srv.main)
    (hwire : srv'.wire = srv.wire) (hack : srv'.ack = srv.ack) : Still srv srv' where
  rounds := by rw [State.rounds, State.rounds, hlistener, hsub]
  names := by rw [State.names, State.names, hlistener, hlisted, hmain]
  sub := hsub
  listener := Or.inl hlistener
  main := Or.inl hmain
  wire := hwire
  ack := hack

/-- A listener goes on that has no table in hand. -/
theorem Still.of_idle {srv srv' : State n nb A C} (hidle : ¬ srv.listener.Busy)
    (hidle' : ¬ srv'.listener.Busy)
    (hsub : pendingMlts srv'.sub = pendingMlts srv.sub) (hmain : srv'.main = srv.main)
    (hwire : srv'.wire = srv.wire) (hack : srv'.ack = srv.ack) : Still srv srv' where
  rounds := by
    unfold State.rounds
    cases hl : srv.listener <;> cases hl' : srv'.listener <;>
      simp_all [Listener.Busy]
  names := by
    unfold State.names
    cases hl : srv.listener <;> cases hl' : srv'.listener <;>
      simp_all [Listener.Busy]
  sub := hsub
  listener := Or.inr ⟨hidle, hidle'⟩
  main := Or.inl hmain
  wire := hwire
  ack := hack

theorem weight_of_not_waited {srv : State n nb A C} (hnot : ¬ srv.Waited) {e : Fin n}
    (he : srv.listener.draining = some e) : srv.main.weight e = 0 := by
  have hne : ∀ request ∈ srv.main.request, request.index ≠ e := by
    intro request hmem heq
    exact hnot ⟨request, hmem, heq ▸ he⟩
  cases hmain : srv.main <;> simp_all [Main.weight]

/-- A request elsewhere goes on. -/
theorem Still.of_main {srv : State n nb A C} {main : Main n C} {inChargeMd : Fin n → List Key}
    (store : Store) (accessList : A) (hnot : ¬ srv.Waited)
    (hnot' : ¬ State.Waited { srv with main := main })
    (hlisted : ∀ e, srv.listener.draining = some e → inChargeMd e = srv.inChargeMd e) :
    Still srv { srv with
      main := main
      store := store
      accessList := accessList
      inChargeMd := inChargeMd } where
  rounds := rfl
  names := by
    have hweight : ∀ e, srv.listener.draining = some e →
        main.weight e = 0 ∧ srv.main.weight e = 0 := fun e he =>
      ⟨weight_of_not_waited hnot' he, weight_of_not_waited hnot he⟩
    unfold State.names
    cases hl : srv.listener with
    | transfer sender receiver =>
        rw [hl] at hlisted hweight
        simp only
        cases sender <;> simp_all
    | _ => rfl
  sub := rfl
  listener := Or.inl rfl
  main := Or.inr ⟨hnot, hnot'⟩
  wire := rfl
  ack := rfl

/-- What helps goes on helping while nothing happens to the transfer. -/
theorem Helpful.still {srv srv' : State n nb A C} {l : Label} (h : Helpful srv l)
    (still : Still srv srv') : Helpful srv' l := by
  have hwaited : srv'.listener = srv.listener → (srv'.Waited ↔ srv.Waited) := by
    intro hl
    rcases still.main with hmain | ⟨hnot, hnot'⟩
    · rw [State.Waited, State.Waited, hmain, hl]
    · exact iff_of_false hnot' hnot
  cases l with
  | listener =>
      rcases still.listener with hl | ⟨hidle, hidle'⟩
      · simpa only [Helpful, hl, still.sub] using h
      · cases hl : srv.listener <;> cases hl' : srv'.listener <;>
          simp_all [Listener.Busy, Helpful, still.sub]
  | sender =>
      obtain ⟨sender, receiver, hl, hready, hnot⟩ := h
      have hl' : srv'.listener = srv.listener := by
        refine still.listener.resolve_right fun hidle => hidle.1 ?_
        rw [hl]
        trivial
      exact ⟨sender, receiver, hl'.trans hl, still.ack ▸ hready, (hwaited hl').not.mpr hnot⟩
  | receiver =>
      obtain ⟨sender, receiver, hl, hready⟩ := h
      have hl' : srv'.listener = srv.listener := by
        refine still.listener.resolve_right fun hidle => hidle.1 ?_
        rw [hl]
        trivial
      exact ⟨sender, receiver, hl'.trans hl, hready⟩
  | main =>
      obtain ⟨hwait, hmain⟩ := h
      have hmain' : srv'.main = srv.main :=
        still.main.resolve_right fun hnot => hnot.1 hwait
      have hl' : srv'.listener = srv.listener := by
        refine still.listener.resolve_right fun hidle => hidle.1 ?_
        obtain ⟨request, _, hdraining⟩ := hwait
        cases hl : srv.listener <;> simp_all [Listener.Busy]
      refine ⟨(hwaited hl').mpr hwait, ?_⟩
      rw [hmain']
      exact hmain
  | usr2 => exact h
  | handler i => exact h

/-! ## The steps of a server -/

/-- What the rounds and the transfers say of a server: a table on the socket is the next
thing that the listener receives, the lists are no longer than the table, and the two
threads are at different entries. -/
structure Orderly (srv : State n nb A C) : Prop where
  first : pendingMlts srv.sub ≠ [] →
    srv.listener = .recv ∧ ∃ m sub, srv.sub = .mlt m :: sub
  launch : ∀ m i plan, srv.listener = .updateMlt m i plan → n ≤ i →
    plan.toSend.length ≤ n ∧ plan.toReceive.length ≤ n
  threads : ∀ e, srv.listener.draining = some e → srv.listener.unpacking ≠ some e

theorem Orderly.pendingMlts_eq_nil {srv : State n nb A C} (orderly : Orderly srv)
    (hl : srv.listener ≠ .recv) : pendingMlts srv.sub = [] := by
  by_contra hne
  exact hl (orderly.first hne).1

/-- A request adds at most one name. -/
theorem length_distributionPreSend (head : List Key) (request : Request n) (done : Bool) :
    (distributionPreSend head request done).1.length ≤ head.length + 1 := by
  unfold distributionPreSend
  split
  · split
    · exact Nat.le_refl _
    · rw [mdEntrySearchMdName_eq]
      split
      · exact Nat.le_succ _
      · rename_i head' hsearch
        split at hsearch
        · cases hsearch
          exact List.length_erase_le.trans (Nat.le_succ _)
        · cases hsearch
    · exact Nat.le_succ _
    · exact Nat.le_succ _
  · exact Nat.le_succ _

/-- The main loop goes on.  If its request is for the entry that is being sent there is
less left; a name that it adds to the list was counted with it. -/
theorem work_of_main {srv : State n nb A C} {main : Main n C}
    {inChargeMd : Fin n → List Key} (store : Store) (accessList : A)
    (hmain : ∀ request ∈ main.request, request ∈ srv.main.request)
    (hkeeps : ∀ e, (∀ request ∈ srv.main.request, request.index ≠ e) →
      inChargeMd e = srv.inChargeMd e)
    (hless : ∀ request ∈ srv.main.request,
      3 * (inChargeMd request.index).length + main.weight request.index <
        3 * (srv.inChargeMd request.index).length + srv.main.weight request.index)
    (hsend : ∀ request ∈ srv.main.request,
      main.weight request.index < srv.main.weight request.index) :
    let srv' : State n nb A C :=
      { srv with
        main := main
        store := store
        accessList := accessList
        inChargeMd := inChargeMd }
    Less srv' srv ∨ Still srv srv' ∧ ¬ srv.Waited := by
  by_cases hwait : srv.Waited
  · obtain ⟨request, hmem, he⟩ := hwait
    have hlist := hless request hmem
    have hweight := hsend request hmem
    refine Or.inl (Or.inr ⟨rfl, ?_⟩)
    unfold State.names
    cases hl : srv.listener with
    | transfer sender receiver =>
        rw [hl] at he
        simp only
        apply Nat.add_lt_add_right
        cases sender <;> simp_all
    | _ =>
        rw [hl] at he
        cases he
  · refine Or.inr ⟨Still.of_main store accessList hwait ?_ ?_, hwait⟩
    · rintro ⟨request, hmem, he⟩
      exact hwait ⟨request, hmain request hmem, he⟩
    · intro e he
      exact hkeeps e fun request hmem heq => hwait ⟨request, hmem, heq ▸ he⟩

/-- A step of a thread leaves less, and every other step leaves what there is, unless
the process ends. -/
theorem Step.work [Eacl A n] {s : Fin nb} {srv srv' : State n nb A C} {l : Label}
    (orderly : Orderly srv) (halive : srv'.main.alive = true) (h : Step s srv l srv') :
    Less srv' srv ∨ Still srv srv' ∧ ¬ Helpful srv l := by
  cases h with
  | usr2 | calculateSai | setEaclEpoch | resetAccess | threshold | noRebalancing
  | askRebalancing => exact Or.inr ⟨Still.of_eq rfl rfl rfl rfl rfl rfl, id⟩
  | crash => cases halive
  | recvAsk epochNeeded sub hl hsub =>
      have hnil : pendingMlts srv.sub = [] := by
        by_contra hne
        obtain ⟨m, sub', hsub'⟩ := (orderly.first hne).2
        rw [hsub] at hsub'
        cases hsub'
      refine Or.inr ⟨Still.of_idle (by simp [hl, Listener.Busy]) (by simp [Listener.Busy])
        ?_ rfl rfl rfl, ?_⟩
      · rw [hsub, pendingMlts]
      · simp [Helpful, hl, hnil]
  | recvMlt tempMlt sub hl hsub =>
      left
      left
      simp [State.rounds, hl, hsub, pendingMlts]
  | oldEpoch epochNeeded hl hepoch | newEpoch epochNeeded hl hepoch
  | epochReached epochNeeded hl hepoch | readSai hl | sendEacl sai hl =>
      have hnil := orderly.pendingMlts_eq_nil (by simp [hl])
      refine Or.inr ⟨Still.of_idle (by simp [hl, Listener.Busy]) (by simp [Listener.Busy])
        rfl rfl rfl rfl, ?_⟩
      simp [Helpful, hl, hnil]
  | updateRow tempMlt i plan hl =>
      left
      left
      have hi := i.isLt
      simp only [State.rounds, hl]
      omega
  | launch tempMlt i plan toSend hl hi hsort =>
      left
      left
      obtain ⟨hsend, hreceive⟩ := orderly.launch tempMlt i plan hl hi
      have hlength := (sortToSend_perm hsort).length_eq
      simp only [State.rounds, hl, LoadSender.rounds, LoadReceiver.rounds]
      omega
  | join sender receiver hl hsender hreceiver =>
      left
      left
      have hnil := orderly.pendingMlts_eq_nil (by simp [hl])
      simp [State.rounds, hl, hnil]
  | drainNext server toSend packet receiver hl hne =>
      left
      right
      simp [State.rounds, State.names, hl]
  | pop server toSend packet receiver mdName head hl hpop =>
      left
      right
      simp [State.rounds, State.names, hl, hpop]
      omega
  | del server toSend packet receiver mdName hl hstore =>
      left
      right
      simp [State.rounds, State.names, hl, Packing.append]
  | unpackNext sender source entry mdName mdNames left hl =>
      have hthreads := orderly.threads
      rw [hl] at hthreads
      left
      right
      have hnames : sender.names
          (Function.update srv.inChargeMd entry (mdName :: srv.inChargeMd entry)) srv.main =
          sender.names srv.inChargeMd srv.main := by
        have hne : ∀ e, sender.draining = some e → e ≠ entry := by
          rintro e he rfl
          exact hthreads e he rfl
        cases sender <;> simp_all
      refine ⟨by simp [State.rounds, hl], ?_⟩
      simp only [State.names, hl, hnames, LoadReceiver.names, List.length_cons]
      omega
  | put sender source entry mdNames left mdName head hl hhead hstore =>
      left
      right
      simp [State.rounds, State.names, hl]
  | sendNext server entry toSend receiver hl =>
      left
      left
      simp only [State.rounds, hl, LoadSender.rounds, List.length_cons]
      omega
  | incrAccess client request hmain =>
      have hmem : ∀ r ∈ srv.main.request, r = request := by simp [hmain]
      refine (work_of_main srv.store _ (by simp [hmain]) (fun e _ => rfl) ?_ ?_).imp id
        fun h => ⟨h.1, fun help => h.2 help.1⟩
      · intro r hr
        simp [hmem r hr, hmain, Main.weight]
      · intro r hr
        simp [hmem r hr, hmain, Main.weight]
  | storage client request store done getValue hmain hstore =>
      have hmem : ∀ r ∈ srv.main.request, r = request := by simp [hmain]
      refine (work_of_main store srv.accessList (by simp [hmain]) (fun e _ => rfl) ?_ ?_).imp id
        fun h => ⟨h.1, fun help => h.2 help.1⟩
      · intro r hr
        simp [hmem r hr, hmain, Main.weight]
      · intro r hr
        simp [hmem r hr, hmain, Main.weight]
  | _ =>
      left
      left
      simp_all [State.rounds]

end MeDiE.Server
