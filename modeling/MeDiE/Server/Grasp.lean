import MeDiE.Server.LoadArgsSorted
import MeDiE.Server.Work

/-!
# What helps can be done

`md_entry_pop` follows a null pointer if the list has become empty since the sender looked
at it, and the receiver if the name it has put into the list is gone.  Where senders look
at the lists alone neither happens, so a step that helps is never one that the process
does not survive.
-/

namespace MeDiE.Server

open MeDiE.Storage
open MeDiE.System

variable {n nb : Nat} {A C : Type}

/-- The name that a sender is about to take is there, and no request is about to take it
away; the name that a receiver has put into the list is there. -/
structure State.Grasped (srv : State n nb A C) : Prop where
  pop : ∀ server toSend packet receiver,
    srv.listener = .transfer (.pop server toSend packet) receiver →
      ∃ k head, srv.inChargeMd packet.entry = k :: head ∧
        ∀ request ∈ srv.main.change, request.index = packet.entry → request.key ≠ k
  put : ∀ sender source entry mdNames left,
    srv.listener = .transfer sender (.put source entry mdNames left) →
      srv.inChargeMd entry ≠ []

/-- The lists stay, and no other request is between its steps. -/
theorem State.Grasped.congr {srv srv' : State n nb A C} (grasped : srv.Grasped)
    (hlisted : srv'.inChargeMd = srv.inChargeMd)
    (hmain : ∀ request ∈ srv'.main.change, request ∈ srv.main.change)
    (hpop : ∀ server toSend packet receiver,
      srv'.listener = .transfer (.pop server toSend packet) receiver →
        ∃ receiver', srv.listener = .transfer (.pop server toSend packet) receiver')
    (hput : ∀ sender source entry mdNames left,
      srv'.listener = .transfer sender (.put source entry mdNames left) →
        ∃ sender', srv.listener = .transfer sender' (.put source entry mdNames left)) :
    srv'.Grasped where
  pop := by
    intro server toSend packet receiver hl
    obtain ⟨receiver', hl'⟩ := hpop server toSend packet receiver hl
    obtain ⟨k, head, hlist, hchange⟩ := grasped.pop server toSend packet receiver' hl'
    exact ⟨k, head, by rw [hlisted, hlist],
      fun request hmem => hchange request (hmain request hmem)⟩
  put := by
    intro sender source entry mdNames left hl
    obtain ⟨sender', hl'⟩ := hput sender source entry mdNames left hl
    rw [hlisted]
    exact grasped.put sender' source entry mdNames left hl'

theorem State.Grasped.of_eq {srv srv' : State n nb A C} (grasped : srv.Grasped)
    (hlisted : srv'.inChargeMd = srv.inChargeMd) (hmain : srv'.main = srv.main)
    (hlistener : srv'.listener = srv.listener) : srv'.Grasped :=
  grasped.congr hlisted (fun _ hmem => hmain ▸ hmem)
    (fun _ _ _ receiver hl => ⟨receiver, hlistener ▸ hl⟩)
    fun sender _ _ _ _ hl => ⟨sender, hlistener ▸ hl⟩

/-- The receiver goes on to a point where no name is in its hand. -/
theorem State.Grasped.receiver {srv : State n nb A C} (grasped : srv.Grasped)
    {sender : LoadSender n nb} {receiver receiver' : LoadReceiver n nb}
    (hl : srv.listener = .transfer sender receiver)
    (hput : ∀ source entry mdNames left, receiver' ≠ .put source entry mdNames left) :
    State.Grasped { srv with listener := .transfer sender receiver' } := by
  refine grasped.congr rfl (fun _ hmem => hmem) (fun _ _ _ _ hl' => ?_) fun _ _ _ _ _ hl' => ?_
  · cases hl'
    exact ⟨receiver, hl⟩
  · cases hl'
    exact absurd rfl (hput _ _ _ _)

theorem Step.grasped [Eacl A n] {s : Fin nb} {srv srv' : State n nb A C} {l : Label}
    (grasped : srv.Grasped) (apart : srv.Apart) (halone : LooksAlone srv l)
    (h : Step s srv l srv') : srv'.Grasped := by
  have hchange := h.change
  cases h with
  | drainNext server toSend packet receiver hl hne =>
      have hclear : srv.Clear packet.entry := by simpa only [LooksAlone, hl] using halone
      constructor
      · intro server' toSend' packet' receiver' hl'
        cases hl'
        cases hlist : srv.inChargeMd packet.entry with
        | nil => exact absurd hlist hne
        | cons k head =>
            rw [State.Clear, hlist] at hclear
            exact ⟨k, head, rfl, fun request hmem _ => hclear request hmem⟩
      · intro sender source entry mdNames left hl'
        cases hl'
        exact grasped.put _ source entry mdNames left hl
  | pop server toSend packet receiver mdName head hl hpop =>
      constructor
      · intro server' toSend' packet' receiver' hl'
        cases hl'
      · intro sender source entry mdNames left hl'
        cases hl'
        have hne : entry ≠ packet.entry := by
          rintro rfl
          exact apart.threads packet.entry (by rw [hl]; rfl) (by rw [hl]; rfl)
        show Function.update srv.inChargeMd packet.entry head entry ≠ []
        rw [Function.update_of_ne hne]
        exact grasped.put _ source entry mdNames left hl
  | unpackNext sender source entry mdName mdNames left hl =>
      constructor
      · intro server toSend packet receiver hl'
        cases hl'
        have hne : packet.entry ≠ entry := by
          rintro rfl
          exact apart.threads packet.entry (by rw [hl]; rfl) (by rw [hl]; rfl)
        show ∃ k head, Function.update srv.inChargeMd entry _ packet.entry = k :: head ∧ _
        rw [Function.update_of_ne hne]
        exact grasped.pop server toSend packet _ hl
      · intro sender' source' entry' mdNames' left' hl'
        cases hl'
        show Function.update srv.inChargeMd entry _ entry ≠ []
        rw [Function.update_self]
        exact List.cons_ne_nil _ _
  | usr2 | calculateSai | setEaclEpoch | resetAccess | threshold | noRebalancing
  | askRebalancing | incrAccess | storage | crash =>
      exact grasped.congr rfl hchange (fun _ _ _ receiver hl => ⟨receiver, hl⟩)
        fun sender _ _ _ _ hl => ⟨sender, hl⟩
  | _ =>
      refine grasped.congr rfl hchange (fun _ _ _ _ hl' => ?_) fun _ _ _ _ _ hl' => ?_
      all_goals cases hl' <;> exact ⟨_, ‹_›⟩

/-- A request for another entry is accepted. -/
theorem State.Grasped.accept {srv : State n nb A C} (grasped : srv.Grasped) (client : C)
    {request : Request n} (hfree : srv.listener.draining ≠ some request.index) :
    State.Grasped { srv with main := .incrAccess client request } where
  pop := by
    intro server toSend packet receiver hl
    obtain ⟨k, head, hlist, _⟩ := grasped.pop server toSend packet receiver hl
    refine ⟨k, head, hlist, ?_⟩
    intro request' hmem he
    cases (Main.mem_change.mp hmem).1
    refine absurd ?_ hfree
    rw [show srv.listener = _ from hl, he]
    rfl
  put := grasped.put

theorem State.Grasped.answer {srv : State n nb A C} (grasped : srv.Grasped)
    (apart : srv.Apart) {client : C} {request : Request n} {done : Bool}
    {getValue : Option Data} (hmain : srv.main = .preSend client request done getValue) :
    State.Grasped
      ({ srv with
        inChargeMd := Function.update srv.inChargeMd request.index
          (distributionPreSend (srv.inChargeMd request.index) request done).1
        main := .recv } : State n nb A C) where
  pop := by
    intro server toSend packet receiver hl
    obtain ⟨k, head, hlist, hchange⟩ := grasped.pop server toSend packet receiver hl
    show ∃ k head, Function.update srv.inChargeMd request.index _ packet.entry = k :: head ∧ _
    by_cases he : packet.entry = request.index
    · rw [he, Function.update_self, ← he, hlist]
      -- only a delete takes a name out of the list, and it is for another one
      have hkey : done = true → isDelete request = true → request.key ≠ k := by
        intro hdone hdelete
        refine hchange request (Main.mem_change.mpr ⟨?_, Or.inr hdelete, ?_⟩) he.symm
        · rw [hmain]
          rfl
        · simp [hmain, Main.failed, hdone]
      cases done with
      | false => exact ⟨k, head, rfl, fun request' hmem => by cases hmem⟩
      | true =>
          rw [distributionPreSend, if_pos rfl]
          cases htype : request.reqType with
          | create data => exact ⟨_, _, rfl, fun request' hmem => by cases hmem⟩
          | read => exact ⟨k, head, rfl, fun request' hmem => by cases hmem⟩
          | update data => exact ⟨k, head, rfl, fun request' hmem => by cases hmem⟩
          | delete =>
              have hne : k ≠ request.key :=
                (hkey rfl (by simp [isDelete, htype])).symm
              rw [mdEntrySearchMdName, if_neg hne]
              cases hsearch : mdEntrySearchMdName head request.key with
              | none => exact ⟨k, head, rfl, fun request' hmem => by cases hmem⟩
              | some head' => exact ⟨k, head', rfl, fun request' hmem => by cases hmem⟩
    · rw [Function.update_of_ne he]
      exact ⟨k, head, hlist, fun request' hmem => by cases hmem⟩
  put := by
    intro sender source entry mdNames left hl
    show Function.update srv.inChargeMd request.index _ entry ≠ []
    have hput := grasped.put sender source entry mdNames left hl
    by_cases he : entry = request.index
    · subst he
      have hl' : srv.listener = .transfer sender (.put source request.index mdNames left) := hl
      have hnot := apart.receiver request.index (by rw [hl']; rfl)
      rw [hmain] at hnot
      rwa [Function.update_self, distributionPreSend_of_not_changing hnot]
    · rwa [Function.update_of_ne he]

/-- The threads of a transfer follow no null pointer. -/
theorem State.Grasped.nullPointer {srv : State n nb A C} (grasped : srv.Grasped) {l : Label}
    (hnull : NullPointer srv l) : l = .main := by
  cases hnull with
  | getValue => rfl
  | pop server toSend packet receiver hl hnil =>
      obtain ⟨k, head, hlist, _⟩ := grasped.pop server toSend packet receiver hl
      rw [hnil] at hlist
      cases hlist
  | put sender source entry mdNames left hl hnil =>
      exact absurd hnil (grasped.put sender source entry mdNames left hl)

/-- The main loop is not about to read a key that is not stored. -/
def ReadsStored (srv : State n nb A C) (l : Label) : Prop :=
  match l, srv.main with
  | .main, .storage _ request =>
      request.reqType = .read → srv.store request.key ≠ none
  | _, _ => True

instance (srv : State n nb A C) (l : Label) : Decidable (ReadsStored srv l) := by
  unfold ReadsStored
  split
  · infer_instance
  · exact isTrue trivial

/-- A process that holds what it looks for, and is not about to read a key that it does
not store, follows no null pointer. -/
theorem Step.alive [Eacl A n] {s : Fin nb} {srv srv' : State n nb A C} {l : Label}
    (grasped : srv.Grasped) (halive : srv.main.alive = true) (hreads : ReadsStored srv l)
    (h : Step s srv l srv') : srv'.main.alive = true := by
  cases h with
  | incrAccess | storage => rfl
  | crash l hnull =>
      obtain rfl := grasped.nullPointer hnull
      obtain ⟨client, request, hmain, hstore⟩ := hnull
      obtain ⟨htype, hnone⟩ := storageOperation_eq_nullString.mp hstore
      simp only [ReadsStored, hmain] at hreads
      exact absurd hnone (hreads htype)
  | _ => exact halive

/-- The main loop is not about to read a key that is not stored or has a value of ten
bytes or more. -/
def State.ReadsShort (srv : State n nb A C) : Prop :=
  match srv.main with
  | .storage _ request =>
      request.reqType = .read → ∃ data ∈ srv.store request.key, data.bytes.length < 10
  | _ => True

instance (srv : State n nb A C) : Decidable srv.ReadsShort := by
  unfold State.ReadsShort
  split
  · infer_instance
  · exact isTrue trivial

theorem State.ReadsShort.readsStored {srv : State n nb A C} (h : srv.ReadsShort) (l : Label) :
    ReadsStored srv l := by
  unfold ReadsStored
  split
  · rename_i hmain
    intro htype
    rw [State.ReadsShort, hmain] at h
    obtain ⟨data, hdata, _⟩ := h htype
    exact Option.ne_none_iff_exists'.mpr ⟨data, hdata⟩
  · trivial

/-- A list is clear if no request is for its entry. -/
theorem State.clear_of_not_waited {hash : Key → Fin n} {srv : State n nb A C}
    (named : srv.Named hash) (hnot : ¬ srv.Waited) {e : Fin n}
    (he : srv.listener.draining = some e) : srv.Clear e := by
  have hindex : ∀ request ∈ srv.main.change, request.index ≠ e := by
    intro request hmem heq
    exact hnot ⟨request, (Main.mem_change.mp hmem).1, heq ▸ he⟩
  unfold State.Clear
  split
  · rintro ⟨request, hmem, heq⟩
    exact hindex request hmem heq
  · rename_i k head hlist
    rintro request hmem rfl
    apply hindex request hmem
    rw [named.index_of_change hmem]
    exact named.listed e request.key (by rw [hlist]; exact List.mem_cons_self)

section Enabled

variable [Eacl A n] (s : Fin nb) {hash : Key → Fin n} {srv : State n nb A C}

theorem listener_enabled (h : Helpful srv .listener) (orderly : Orderly srv)
    (halive : srv.main.alive = true) : (step s srv .listener).isSome := by
  rw [step_of_alive halive (by simp), threadStep, listenerStep]
  cases hl : srv.listener with
  | updateMlt m i plan =>
      by_cases hi : i < n
      · simp [hi]
      · obtain ⟨toSend, hsort⟩ : ∃ toSend, sortToSend plan.toSend = some toSend := by
          obtain ⟨toSend, hsort, _⟩ := sortToSend_sorted plan.toSend
          exact ⟨toSend, hsort⟩
        simp [hi, hsort]
  | transfer sender receiver =>
      simp only [Helpful, hl] at h
      simp [h.1, h.2]
  | recv =>
      simp only [Helpful, hl] at h
      obtain ⟨m, sub, hsub⟩ := (orderly.first h).2
      simp [hsub]
  | _ =>
      simp only [Helpful, hl] at h
      rw [orderly.pendingMlts_eq_nil (by simp [hl])] at h
      exact absurd rfl h

theorem sender_enabled (h : Helpful srv .sender) (grasped : srv.Grasped)
    (halive : srv.main.alive = true) : (step s srv .sender).isSome := by
  obtain ⟨sender, receiver, hl, hready, _⟩ := h
  rw [step_of_alive halive (by simp), threadStep, hl]
  simp only [senderStep]
  cases sender with
  | next toSend => cases toSend <;> rfl
  | drain server toSend packet =>
      cases hlist : srv.inChargeMd packet.entry <;> simp [hlist]
  | pop server toSend packet =>
      obtain ⟨k, head, hlist, _⟩ := grasped.pop server toSend packet receiver hl
      simp [hlist, mdEntryPop]
  | del server toSend packet mdName =>
      cases hdel : genericDel srv.store mdName <;> simp [hdel]
  | recvAck entry toSend =>
      have hack : srv.ack = true := hready
      simp [hack]
  | send server toSend packet => rfl
  | updateState entry toSend => rfl
  | resetEacl entry toSend => rfl
  | finished => exact hready.elim
  | failed => exact hready.elim

omit [Eacl A n] in
/-- The sender has its turn when nobody is at the list. -/
theorem Helpful.looksAlone (h : Helpful srv .sender) (named : srv.Named hash) :
    LooksAlone srv .sender := by
  obtain ⟨sender, receiver, hl, _, hnot⟩ := h
  have hclear := fun e => State.clear_of_not_waited named hnot (e := e)
  rw [hl] at hclear
  cases sender with
  | drain server toSend packet =>
      simpa only [LooksAlone, hl] using hclear packet.entry rfl
  | pop server toSend packet =>
      simpa only [LooksAlone, hl] using hclear packet.entry rfl
  | _ => simp only [LooksAlone, hl]

theorem receiver_enabled (h : Helpful srv .receiver) (grasped : srv.Grasped)
    (halive : srv.main.alive = true) : (step s srv .receiver).isSome := by
  obtain ⟨sender, receiver, hl, hready⟩ := h
  rw [step_of_alive halive (by simp), threadStep, hl]
  simp only [receiverStep]
  cases receiver with
  | recv left =>
      have hleft : left = 0 := hready
      subst hleft
      rfl
  | unpack source entry mdNames left => cases mdNames <;> rfl
  | put source entry mdNames left =>
      cases hlist : srv.inChargeMd entry with
      | nil => exact absurd hlist (grasped.put sender source entry mdNames left hl)
      | cons k head =>
          simp only [hlist]
          cases genericPut srv.store k aWord <;> rfl
  | updateState source entry left => rfl
  | resetEacl source entry left => rfl
  | reply source entry left => exact hready.elim
  | finished => exact hready.elim
  | failed => exact hready.elim

theorem main_enabled (h : Helpful srv .main) (halive : srv.main.alive = true)
    (hshort : srv.ReadsShort) : (step s srv .main).isSome := by
  obtain ⟨⟨request, hmem, _⟩, hmain⟩ := h
  rw [step_of_alive halive (by simp), threadStep, mainStep]
  cases hm : srv.main with
  | recv =>
      rw [hm] at hmem
      cases hmem
  | incrAccess client r => rfl
  | storage client r =>
      cases hop : storageOperation srv.store r with
      | returned store done getValue => simp [hop]
      | nullString => simp [hop]
      | overrun =>
          rw [State.ReadsShort, hm] at hshort
          obtain ⟨htype, data, hdata, hle⟩ := storageOperation_eq_overrun.mp hop
          obtain ⟨data', hdata', hlt⟩ := hshort htype
          rw [Option.mem_def, hdata, Option.some.injEq] at hdata'
          subst hdata'
          omega
  | preSend client r done value => exact absurd hm (hmain client r done value)
  | crashed =>
      rw [hm] at hmem
      cases hmem

/-- A step that helps can be done. -/
theorem Helpful.enabled {l : Label} (h : Helpful srv l) (named : srv.Named hash)
    (orderly : Orderly srv) (grasped : srv.Grasped) (halive : srv.main.alive = true)
    (hshort : srv.ReadsShort) : (step s srv l).isSome ∧ LooksAlone srv l := by
  cases l with
  | listener => exact ⟨listener_enabled s h orderly halive, trivial⟩
  | sender => exact ⟨sender_enabled s h grasped halive, h.looksAlone named⟩
  | receiver => exact ⟨receiver_enabled s h grasped halive, trivial⟩
  | main => exact ⟨main_enabled s h halive hshort, trivial⟩
  | usr2 => exact h.elim
  | handler i => exact h.elim

end Enabled

end MeDiE.Server
