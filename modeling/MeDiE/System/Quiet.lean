import MeDiE.System.Transfers
import MeDiE.System.Versions

/-!
# Accesses are counted at the owner

A server counts accesses to the entries it owns, and both sides of a transfer clear
what they have counted.  So with the list of `eacl_indedh.c` an entry that a server does
not own is quiet there: at most one access is on record, by a request that was accepted
just before the entry was given away, and the index is 0.  An index that is not 0 in an
`EACL` is therefore one of the owner.

This needs that an entry is not cleared while a handler is in the assignment to its
index.  What the handler has read by then it writes back afterwards.
-/

namespace MeDiE.Server

open MeDiE.EaclIndedh (EaclData Quiet)
open MeDiE.System

variable {n nb : Nat} {A C : Type}

/-- The entries that a sender has still to clear. -/
def uncleared : LoadSender n nb → List (Fin n)
  | .next toSend => toSend.map Prod.snd
  | .drain _ toSend packet => packet.entry :: toSend.map Prod.snd
  | .pop _ toSend packet => packet.entry :: toSend.map Prod.snd
  | .del _ toSend packet _ => packet.entry :: toSend.map Prod.snd
  | .send _ toSend packet => packet.entry :: toSend.map Prod.snd
  | .updateState entry toSend => entry :: toSend.map Prod.snd
  | .resetEacl entry toSend => entry :: toSend.map Prod.snd
  | .recvAck _ toSend => toSend.map Prod.snd
  | .finished => []
  | .failed => []

/-- The entries given away that are still to be cleared. -/
def toClear : Listener n nb → List (Fin n)
  | .updateMlt _ _ plan => plan.toSend.map Prod.snd
  | .transfer sender _ => uncleared sender
  | _ => []

/-- The main loop is about to count an access. -/
def Counting (srv : State n nb A C) (e : Fin n) : Prop :=
  ∃ c request, srv.main = .incrAccess c request ∧ request.index = e

/-- The handler has read a value of the entry and is still to write its index. -/
def assigning (e : Fin n) : Handler n → Bool
  | .loadCount i _ => i = e
  | .storeSai i _ => i = e
  | _ => false

/-- The sender clears an entry only when no handler is in the assignment to its index. -/
def ResetsApart (srv : State n nb A C) : Label → Prop
  | .sender =>
      match srv.listener with
      | .transfer (.resetEacl entry _) _ => ∀ h ∈ srv.handlers, assigning entry h = false
      | _ => True
  | _ => True

instance (srv : State n nb A C) : (l : Label) → Decidable (ResetsApart srv l)
  | .sender =>
      match h : srv.listener with
      | .transfer (.resetEacl entry _) _ =>
          decidable_of_iff (∀ h ∈ srv.handlers, assigning entry h = false)
            (by simp only [ResetsApart, h])
      | .transfer (.next _) _ | .transfer (.drain _ _ _) _ | .transfer (.pop _ _ _) _
      | .transfer (.del _ _ _ _) _ | .transfer (.send _ _ _) _
      | .transfer (.updateState _ _) _ | .transfer (.recvAck _ _) _ | .transfer .finished _
      | .transfer .failed _ | .recv | .checkEpoch _ | .waitEpoch _ | .readSai | .sendEacl _
      | .updateMlt _ _ _ => isTrue (by simp only [ResetsApart, h])
  | .usr2 | .handler _ | .listener | .receiver | .main => isTrue trivial

/-- What the handler is going to write at the entry is 0. -/
def WritesZero (e : Fin n) : Handler n → Prop
  | .loadCount i old => i = e → old = 0
  | .storeSai i value => i = e → value = 0
  | _ => True

theorem writesZero_of_not_assigning {e : Fin n} {h : Handler n} (hh : assigning e h = false) :
    WritesZero e h := by
  cases h with
  | loadCount i old | storeSai i value =>
      rintro rfl
      simp [assigning] at hh
  | _ => trivial

/-- What there is of an entry of somebody else. -/
structure QuietAt (srv : State n nb (EaclData n) C) (e : Fin n) : Prop where
  one : Quiet srv.accessList 1 e
  counting : Counting srv e → Quiet srv.accessList 0 e
  handlers : ∀ h ∈ srv.handlers, WritesZero e h

/-- Entries of others are quiet, once they are cleared. -/
def QuietInv (s : Fin nb) (srv : State n nb (EaclData n) C) : Prop :=
  ∀ e, srv.table.idSrv e ≠ s → e ∉ toClear srv.listener → QuietAt srv e

section Steps

variable {s : Fin nb} {srv srv' : State n nb (EaclData n) C}

/-- The table, the main loop, the handlers and the access list stay, and nothing is
cleared. -/
theorem QuietInv.congr (inv : QuietInv s srv)
    (htable : srv'.table.idSrv = srv.table.idSrv) (hlist : srv'.accessList = srv.accessList)
    (hmain : srv'.main = srv.main) (hhandlers : srv'.handlers = srv.handlers)
    (hclear : ∀ e ∈ toClear srv.listener, e ∈ toClear srv'.listener) : QuietInv s srv' := by
  intro e howner he
  rw [htable] at howner
  have hquiet := inv e howner fun hmem => he (hclear e hmem)
  constructor
  · exact hlist ▸ hquiet.one
  · rw [hlist, Counting, hmain]
    exact hquiet.counting
  · exact hhandlers ▸ hquiet.handlers

/-- The handlers go on, and the access list is changed in a way that keeps quiet entries
quiet. -/
theorem QuietInv.access (inv : QuietInv s srv) {a : EaclData n} {handlers : List (Handler n)}
    {eaclEpoch : Nat} {push : List (ToManager n nb)} {epoch : Nat}
    (ha : ∀ k e, (∀ h ∈ srv.handlers, WritesZero e h) → Quiet srv.accessList k e → Quiet a k e)
    (hhandlers : ∀ e, Quiet srv.accessList 1 e → (∀ h ∈ srv.handlers, WritesZero e h) →
      ∀ h ∈ handlers, WritesZero e h) :
    QuietInv s { srv with
      accessList := a
      handlers := handlers
      epoch := epoch
      eaclEpoch := eaclEpoch
      push := push } := by
  intro e howner he
  have hquiet := inv e howner he
  exact ⟨ha 1 e hquiet.handlers hquiet.one,
    fun hcount => ha 0 e hquiet.handlers (hquiet.counting hcount),
    hhandlers e hquiet.one hquiet.handlers⟩

/-- A handler goes on to a point that is before no assignment. -/
theorem writesZero_set {e : Fin n} {handlers : List (Handler n)} {i : Nat} {h' : Handler n}
    (hold : ∀ h ∈ handlers, WritesZero e h) (hnew : WritesZero e h') :
    ∀ h ∈ handlers.set i h', WritesZero e h := by
  intro h hmem
  rcases List.mem_or_eq_of_mem_set hmem with hmem | rfl
  · exact hold h hmem
  · exact hnew

/-- A handler makes a step of `eacl_calculate_sai`. -/
theorem QuietInv.calculate (inv : QuietInv s srv) {i : Nat} {h h' : Handler n}
    {a : EaclData n} (hi : srv.handlers[i]? = some h)
    (hnext : Calculate srv.accessList h a h') :
    QuietInv s { srv with
      accessList := a
      handlers := srv.handlers.set i h' } := by
  have hmem := List.mem_of_getElem? hi
  apply inv.access
  · intro k e hzero hquiet
    cases hnext with
    | storeSai j value => exact EaclIndedh.quiet_setSai hquiet (hzero _ hmem)
    | _ => exact hquiet
  · intro e hquiet hzero
    apply writesZero_set hzero
    cases hnext with
    | loadSai j =>
        rintro rfl
        exact hquiet.2
    | loadCount j old =>
        rintro rfl
        rw [hzero _ hmem rfl]
        exact EaclIndedh.next_of_quiet hquiet (Nat.le_refl 1)
    | _ => trivial

theorem quiet_reset {a : EaclData n} {i : Fin n} {k : Nat} {e : Fin n} (h : Quiet a k e) :
    Quiet (EaclIndedh.eaclResetAllEntry a i) k e := by
  by_cases he : e = i
  · subst he
    exact EaclIndedh.quiet_mono (EaclIndedh.quiet_eaclResetAllEntry a e) (Nat.zero_le k)
  · exact EaclIndedh.quiet_eaclResetAllEntry_ne he h

/-- The sender clears an entry. -/
theorem QuietInv.sentEacl (inv : QuietInv s srv) {entry : Fin n}
    {toSend : List (Fin nb × Fin n)} {receiver : LoadReceiver n nb}
    (hl : srv.listener = .transfer (.resetEacl entry toSend) receiver)
    (hapart : ∀ h ∈ srv.handlers, assigning entry h = false) :
    QuietInv s { srv with
      accessList := EaclIndedh.eaclResetAllEntry srv.accessList entry
      listener := .transfer (.recvAck entry toSend) receiver } := by
  intro e howner he
  by_cases heq : e = entry
  · subst heq
    have hquiet := EaclIndedh.quiet_eaclResetAllEntry srv.accessList e
    exact ⟨EaclIndedh.quiet_mono hquiet (Nat.zero_le 1), fun _ => hquiet,
      fun h hmem => writesZero_of_not_assigning (hapart h hmem)⟩
  · have hold : e ∉ toClear srv.listener := by
      rw [hl]
      exact fun hmem => he ((List.mem_cons.mp hmem).resolve_left heq)
    have hquiet := inv e howner hold
    exact ⟨quiet_reset hquiet.one, fun hcount => quiet_reset (hquiet.counting hcount),
      hquiet.handlers⟩

/-- The receiver clears an entry. -/
theorem QuietInv.receivedEacl (inv : QuietInv s srv) {entry : Fin n} {listener : Listener n nb}
    (hclear : toClear listener = toClear srv.listener) :
    QuietInv s { srv with
      accessList := EaclIndedh.eaclResetAllEntry srv.accessList entry
      listener := listener } := by
  intro e howner he
  have hquiet := inv e howner (hclear ▸ he)
  exact ⟨quiet_reset hquiet.one, fun hcount => quiet_reset (hquiet.counting hcount),
    hquiet.handlers⟩

theorem mem_updateRow_toSend (s : Fin nb) (m : MltPacket n nb) (i : Fin n)
    (table : Table.Mlt n (Fin nb)) (plan : Plan n nb) :
    (∀ e ∈ plan.toSend.map Prod.snd, e ∈ (updateRow s m i table plan).2.toSend.map Prod.snd) ∧
      (table.nVer i ≠ m.nVer i → table.idSrv i = s →
        i ∈ (updateRow s m i table plan).2.toSend.map Prod.snd) := by
  unfold updateRow
  by_cases hver : table.nVer i = m.nVer i
  · simp [hver]
  · by_cases hold : table.idSrv i = s
    · simp +contextual [hver, hold]
    · by_cases hnew : m.idSrv i = s <;> simp [hver, hold, hnew]

theorem QuietInv.updateRow (inv : QuietInv s srv) {m : MltPacket n nb} {i : Fin n}
    {plan : Plan n nb} (hl : srv.listener = .updateMlt m i plan) :
    QuietInv s { srv with
      table := (updateRow s m i srv.table plan).1
      listener := .updateMlt m (i + 1) (updateRow s m i srv.table plan).2 } := by
  intro e howner he
  obtain ⟨hkeep, hnew⟩ := mem_updateRow_toSend s m i srv.table plan
  have hrow := (updateRow_table s m i srv.table plan e).1
  have hold : e ∉ toClear srv.listener := by
    rw [hl]
    exact fun hmem => he (hkeep e hmem)
  have hquiet : QuietAt srv e := by
    apply inv e _ hold
    intro hself
    by_cases hchange : e = i ∧ srv.table.nVer i ≠ m.nVer i
    · obtain ⟨rfl, hver⟩ := hchange
      exact he (hnew hver hself)
    · rw [if_neg hchange] at hrow
      exact howner (hrow.trans hself)
  exact ⟨hquiet.one, hquiet.counting, hquiet.handlers⟩

theorem QuietInv.incr (inv : QuietInv s srv) {client : C} {request : Request n}
    (hmain : srv.main = .incrAccess client request) :
    QuietInv s { srv with
      accessList := EaclIndedh.eaclIncrAccess srv.accessList request.index
      main := .storage client request } := by
  intro e howner he
  have hquiet := inv e howner he
  refine ⟨?_, ?_, hquiet.handlers⟩
  · by_cases heq : e = request.index
    · have hzero := hquiet.counting ⟨client, request, hmain, heq.symm⟩
      rw [← heq]
      exact EaclIndedh.quiet_eaclIncrAccess hzero
    · exact EaclIndedh.quiet_eaclIncrAccess_ne heq hquiet.one
  · rintro ⟨c, r, hcount, _⟩
    cases hcount

/-- A main loop that is not about to count an access. -/
theorem QuietInv.setMain (inv : QuietInv s srv) {main : Main n C}
    (hmain : ∀ c request, main = .incrAccess c request →
      srv.table.idSrv request.index = s) (store : Storage.Store)
    (inChargeMd : Fin n → List Storage.Key) :
    QuietInv s { srv with
      main := main
      store := store
      inChargeMd := inChargeMd } := by
  intro e howner he
  have hquiet := inv e howner he
  refine ⟨hquiet.one, ?_, hquiet.handlers⟩
  rintro ⟨c, request, hcount, rfl⟩
  exact absurd (hmain c request hcount) howner

/-- A server keeps the entries of others quiet. -/
theorem Step.quiet {l : Label} (inv : QuietInv s srv) (hgood : Unbroken srv l)
    (hapart : ResetsApart srv l) (h : Step s srv l srv') : QuietInv s srv' := by
  cases h with
  | calculateSai i h h' a hi hnext => exact inv.calculate hi hnext
  | resetAccess i hi =>
      exact inv.access (fun k e _ => EaclIndedh.quiet_eaclResetAccess)
        fun e _ hzero => writesZero_set hzero trivial
  | usr2 =>
      refine inv.access (fun k e _ => id) fun e _ hzero h hmem => ?_
      rcases List.mem_append.mp hmem with hmem | hmem
      · exact hzero h hmem
      · rw [List.mem_singleton.mp hmem]
        trivial
  | setEaclEpoch i hi | threshold i hi =>
      exact inv.access (fun k e _ => id) fun e _ hzero => writesZero_set hzero trivial
  | noRebalancing i max min hi hload | askRebalancing i max min hi hload =>
      exact inv.access (fun k e _ => id) fun e _ hzero h hmem =>
        hzero h (List.mem_of_mem_eraseIdx hmem)
  | updateRow m i plan hl => exact inv.updateRow hl
  | launch m i plan toSend hl hi hsort =>
      refine inv.congr rfl rfl rfl rfl fun e he => ?_
      rw [hl] at he
      exact ((sortToSend_perm hsort).map Prod.snd).mem_iff.mpr he
  | delFailed server toSend packet receiver mdName hl hstore =>
      simp only [Unbroken, hl] at hgood
      exact absurd hstore hgood
  | sentEacl entry toSend receiver hl =>
      simp only [ResetsApart, hl] at hapart
      exact inv.sentEacl hl hapart
  | receivedEacl sender source entry left hl =>
      apply inv.receivedEacl
      rw [hl]
      rfl
  | incrAccess client request hmain => exact inv.incr hmain
  | storage client request store done getValue hmain hstore =>
      exact inv.setMain (fun c r hr => by cases hr) store srv.inChargeMd
  | crash l hnull => exact inv.setMain (fun c r hr => by cases hr) srv.store srv.inChargeMd
  | join sender receiver hl hsender hreceiver =>
      refine inv.congr rfl rfl rfl rfl fun e he => ?_
      cases sender <;> simp_all [toClear, uncleared, LoadSender.exited]
  | _ =>
      refine inv.congr rfl rfl rfl rfl ?_
      simp [toClear, uncleared, Packing.start, Packing.append, *]

end Steps

end MeDiE.Server

namespace MeDiE.System

open MeDiE.EaclIndedh (Quiet)
open MeDiE.Server
open MeDiE.Storage
open MeDiE.Verified
open MeDiE.Verified.Transition

variable {n nb : Nat} {A C : Type} [NeZero nb] [Eacl A n] [DecidableEq C]

omit [Eacl A n] [DecidableEq C] in
/-- A request is accepted by the owner of its entry. -/
theorem owner_of_accept {x : State n nb A C} (hhistory : HistoryInv x.mgr x.log.mlts)
    (hissued : IssuedInv x) {s : Fin nb} {c : C} {request : Request n}
    (hc : (x.client c).point = .sent s request)
    (haccept : Server.distributionPostReceive (x.srv s).table request = .accepted) :
    (x.srv s).table.idSrv request.index = s := by
  have hver := (Server.distributionPostReceive_accepted.mp haccept).2
  have hrequest := hissued.request c s request hc
  rw [hver] at hrequest
  exact (hissued.server s request.index).unique hhistory hrequest

/-- No storage operation of a transfer fails, and entries are cleared apart from the
handlers. -/
def ClearsWhole (l : Label nb C) (x : State n nb A C) : Prop :=
  NoError l x ∧
    match l with
    | .server s l' => ResetsApart (x.srv s) l'
    | _ => True

omit [NeZero nb] [Eacl A n] [DecidableEq C] in
instance (l : Label nb C) (x : State n nb A C) : Decidable (ClearsWhole l x) :=
  haveI := decidableOnServer (fun s l' => ResetsApart (x.srv s) l') l
  inferInstanceAs (Decidable (_ ∧ _))

omit [Eacl A n] in
theorem quietInv_step {hash : Key → Fin n} {x y : State n nb (EaclIndedh.EaclData n) C}
    {l : Label nb C} (hhistory : HistoryInv x.mgr x.log.mlts) (hissued : IssuedInv x)
    (inv : ∀ s, QuietInv s (x.srv s)) (hgood : ClearsWhole l x) (h : Step hash x l y) :
    ∀ s, QuietInv s (y.srv s) := by
  have h' := h
  cases h with
  | accept s c request hc hmain haccept =>
      apply forall_setSrv inv
      apply (inv s).setMain
      intro c' request' heq
      cases heq
      exact owner_of_accept hhistory hissued hc haccept
  | sendAsk epoch hp => exact fun s => (inv s).congr rfl rfl rfl rfl fun e he => he
  | sendMlt hp => exact fun s => (inv s).congr rfl rfl rfl rfl fun e he => he
  | server s l srv hs => exact forall_setSrv inv (hs.quiet (inv s) hgood.1 hgood.2)
  | takePacket w s sender left packet hw hpacket =>
      have hwire : QuietInv s { x.srv s with wire := none } :=
        (inv s).congr rfl rfl rfl rfl fun e he => he
      have htaken := forall_setSrv inv hwire
      apply forall_setSrv htaken
      have hl : ((x.setSrv s { x.srv s with wire := none }).srv w).listener =
          .transfer sender (.recv (left + 1)) := listener_setSrv hw rfl
      exact (htaken w).congr rfl rfl rfl rfl fun e he => by rwa [hl] at he
  | replyPacket w source sender entry left hw =>
      have hack : QuietInv source { x.srv source with ack := true } :=
        (inv source).congr rfl rfl rfl rfl fun e he => he
      have hacked := forall_setSrv inv hack
      apply forall_setSrv hacked
      have hl : ((x.setSrv source { x.srv source with ack := true }).srv w).listener =
          .transfer sender (.reply source entry left) := listener_setSrv hw rfl
      exact (hacked w).congr rfl rfl rfl rfl fun e he => by rwa [hl] at he
  | recvHelp s epoch push hp hpush =>
      exact forall_setSrv inv ((inv s).congr rfl rfl rfl rfl fun e he => he)
  | discardEacl s id sai loadLvl push hp hpush =>
      exact forall_setSrv inv ((inv s).congr rfl rfl rfl rfl fun e he => he)
  | discardHelp s epoch nbRcv push hp hrcv hpush =>
      exact forall_setSrv inv ((inv s).congr rfl rfl rfl rfl fun e he => he)
  | recvEacl s id sai loadLvl nbRcv push hp hrcv hpush =>
      exact forall_setSrv inv ((inv s).congr rfl rfl rfl rfl fun e he => he)
  | answer s c request done getValue hmain =>
      exact forall_setSrv inv ((inv s).setMain (fun c r hr => by cases hr) _ _)
  | _ => exact inv

variable {hash : Key → Fin n}

theorem reachable_of_clearsWhole {x : State n nb A C}
    (hx : Reach (init n nb A C) (StepsIf (step hash) ClearsWhole) x) :
    Reach (init n nb A C) (StepsIf (step hash) NoError) x :=
  hx.mono fun _ _ ⟨l, hgood, hl⟩ => ⟨l, hgood.1, hl⟩

omit [Eacl A n] in
/-- In a run without transfer errors, in which no entry is cleared in the middle of an
assignment to its index, every server keeps the entries of others quiet. -/
theorem quietInv_of_run {x : State n nb (EaclIndedh.EaclData n) C}
    (hx : Reach (init n nb (EaclIndedh.EaclData n) C) (StepsIf (step hash) ClearsWhole) x)
    (s : Fin nb) : QuietInv s (x.srv s) := by
  revert s
  apply Reach.invariant _ _ hx
  · intro s e _ _
    have hquiet : Quiet (EaclIndedh.eaclInit : EaclIndedh.EaclData n) 0 e :=
      EaclIndedh.quiet_eaclInit e
    exact ⟨EaclIndedh.quiet_mono hquiet (Nat.zero_le 1), fun _ => hquiet,
      fun h hmem => by cases hmem⟩
  · rintro x y hx inv ⟨l, hgood, hl⟩
    have hreach := reachable_of_noError (reachable_of_clearsWhole hx)
    exact quietInv_step (historyInv_of_reachable hreach) (issuedInv_of_reachable hreach) inv
      hgood (step_cases hl)

end MeDiE.System
