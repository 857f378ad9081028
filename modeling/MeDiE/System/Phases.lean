import MeDiE.System.Linear

/-!
# Clients and transfers apart

Where no client has a request under way while a table is taken over, the senders never
meet a request: every key is in one place without any further condition, and the servers
are one set of keys to the clients in which each request finds what the ones before it
have left.
-/

namespace MeDiE.Server

open MeDiE.Storage

variable {n nb : Nat} {A C : Type}

/-- The client that the main loop works for. -/
def Main.client : Main n C → Option C
  | .recv => none
  | .incrAccess client _ => some client
  | .storage client _ => some client
  | .preSend client _ _ _ => some client
  | .crashed => none

/-- A main loop that works for no client has no request. -/
theorem Main.request_eq_none {main : Main n C} (h : main.client = none) :
    main.request = none := by
  cases main <;> first | rfl | cases h

/-- A main loop that works for no client has no operation ahead. -/
theorem Main.change_eq_none {main : Main n C} (h : main.client = none) :
    main.change = none := by
  cases main <;> first | rfl | cases h

variable [Eacl A n]

/-- A step of a server leaves its request as it is, unless the process ends there. -/
theorem Step.main_client {s : Fin nb} {srv srv' : State n nb A C} {l : Label}
    (h : Step s srv l srv') :
    srv'.main.client = srv.main.client ∧ srv'.main.request = srv.main.request ∨
      srv'.main = .crashed := by
  cases h with
  | incrAccess client request hmain =>
      rw [hmain]
      exact Or.inl ⟨rfl, rfl⟩
  | storage client request store done getValue hmain hstore =>
      rw [hmain]
      exact Or.inl ⟨rfl, rfl⟩
  | crash => exact Or.inr rfl
  | _ => exact Or.inl ⟨rfl, rfl⟩

omit [Eacl A n] in
/-- A listener without a table in hand is at its socket. -/
theorem looksAlone_of_pending {srv : State n nb A C} (h : srv.pending = []) (l : Label) :
    LooksAlone srv l := by
  rw [State.pending, List.append_eq_nil_iff] at h
  cases l with
  | sender =>
      cases hl : srv.listener with
      | transfer sender receiver => simp [hl, handling] at h
      | _ => simp [LooksAlone, hl]
  | _ => trivial

omit [Eacl A n] in
/-- A main loop that works for no client is not in the way of a sender. -/
theorem looksAlone_of_client {srv : State n nb A C} (h : srv.main.client = none) (l : Label) :
    LooksAlone srv l := by
  have hchange : srv.main.change = none := Main.change_eq_none h
  have hclear : ∀ e, srv.Clear e := by
    intro e
    unfold State.Clear
    split
    · rintro ⟨request, hmem, _⟩
      rw [hchange] at hmem
      cases hmem
    · intro request hmem
      rw [hchange] at hmem
      cases hmem
  cases l with
  | sender =>
      rw [LooksAlone]
      split <;> first | exact hclear _ | trivial
  | _ => trivial

end MeDiE.Server

namespace MeDiE.System

open MeDiE.Server
open MeDiE.Storage
open MeDiE.Verified
open MeDiE.Verified.Transition

variable {n nb : Nat} {A C : Type}

/-! ## Who is served -/

/-- A client whose request is being worked on waits for one server. -/
structure Serving (works : Fin nb → Option C) (served : C → Prop) : Prop where
  served : ∀ s c, works s = some c → served c
  unique : ∀ s w c, works s = some c → works w = some c → s = w

theorem Serving.mono {works : Fin nb → Option C} {served served' : C → Prop}
    (h : Serving works served) (hserved : ∀ c, served c → served' c) : Serving works served' :=
  ⟨fun s c hs => hserved c (h.served s c hs), h.unique⟩

/-- A server takes the request of a client that nobody works for. -/
theorem Serving.take {works : Fin nb → Option C} {served : C → Prop}
    (h : Serving works served) {c : C} (hc : ¬ served c) (s : Fin nb) :
    Serving (Function.update works s (some c)) fun d => d = c ∨ served d := by
  have hcases : ∀ w d, Function.update works s (some c) w = some d →
      w = s ∧ d = c ∨ d ≠ c ∧ works w = some d := by
    intro w d hd
    by_cases hw : w = s
    · subst hw
      rw [Function.update_self, Option.some.injEq] at hd
      exact Or.inl ⟨rfl, hd.symm⟩
    · rw [Function.update_of_ne hw] at hd
      refine Or.inr ⟨?_, hd⟩
      rintro rfl
      exact hc (h.served w d hd)
  constructor
  · intro w d hd
    exact (hcases w d hd).imp And.right fun hd => h.served w d hd.2
  · intro w v d hw hv
    rcases hcases w d hw with ⟨rfl, rfl⟩ | ⟨hne, hw⟩ <;>
      rcases hcases v _ hv with ⟨rfl, heq⟩ | ⟨hne', hv⟩
    · rfl
    · exact absurd rfl hne'
    · exact absurd heq hne
    · exact h.unique w v d hw hv

/-- A server is done with the request of its client. -/
theorem Serving.finish {works : Fin nb → Option C} {served : C → Prop}
    (h : Serving works served) {s : Fin nb} {c : C} (hs : works s = some c) :
    Serving (Function.update works s none) fun d => d ≠ c ∧ served d := by
  have hcases : ∀ w d, Function.update works s none w = some d → w ≠ s ∧ works w = some d := by
    intro w d hd
    by_cases hw : w = s
    · subst hw
      simp at hd
    · rw [Function.update_of_ne hw] at hd
      exact ⟨hw, hd⟩
  constructor
  · intro w d hd
    obtain ⟨hne, hd⟩ := hcases w d hd
    refine ⟨?_, h.served w d hd⟩
    rintro rfl
    exact hne (h.unique w s d hd hs)
  · exact fun w v d hw hv => h.unique w v d (hcases w d hw).2 (hcases v d hv).2

/-- The process of a server ends, and its client waits on. -/
theorem Serving.crash {works : Fin nb → Option C} {served : C → Prop}
    (h : Serving works served) (s : Fin nb) : Serving (Function.update works s none) served := by
  have hcases : ∀ w d, Function.update works s none w = some d → works w = some d := by
    intro w d hd
    by_cases hw : w = s
    · subst hw
      simp at hd
    · rwa [Function.update_of_ne hw] at hd
  exact ⟨fun w d hd => h.served w d (hcases w d hd),
    fun w v d hw hv => h.unique w v d (hcases w d hw) (hcases v d hv)⟩

/-- The clients that the main loops work for. -/
def State.works (x : State n nb A C) (s : Fin nb) : Option C := (x.srv s).main.client

/-- A server works on the request of the client. -/
def State.Served (x : State n nb A C) (c : C) : Prop := (x.client c).point = .served

theorem works_setSrv (x : State n nb A C) (s : Fin nb) (srv : Server.State n nb A C) :
    (x.setSrv s srv).works = Function.update x.works s srv.main.client :=
  funext fun w => Function.apply_update (fun _ srv => srv.main.client) x.srv s srv w

theorem works_setSrv_of_eq {x : State n nb A C} {s : Fin nb} {srv : Server.State n nb A C}
    (h : srv.main.client = (x.srv s).main.client) : (x.setSrv s srv).works = x.works := by
  rw [works_setSrv, h]
  exact Function.update_eq_self s x.works

variable [Eacl A n] [DecidableEq C]

omit [Eacl A n] in
/-- Another client goes on. -/
theorem served_setClient {x : State n nb A C} {c d : C} {client : Client.State n nb}
    (hd : d ≠ c) (h : x.Served d) : (x.setClient c client).Served d :=
  (congrArg Client.State.point (Function.update_of_ne hd _ _)).trans h

omit [Eacl A n] [DecidableEq C] in
theorem ne_of_served {x : State n nb A C} {c d : C} (hc : (x.client c).point ≠ .served)
    (h : x.Served d) : d ≠ c := by
  rintro rfl
  exact hc h

theorem serving_step {hash : Key → Fin n} {x y : State n nb A C} {l : Label nb C}
    (inv : Serving x.works x.Served) (h : Step hash x l y) : Serving y.works y.Served := by
  have hstay : ∀ {y : State n nb A C}, y.works = x.works →
      (∀ c, x.Served c → y.Served c) → Serving y.works y.Served := by
    intro y hworks hserved
    rw [hworks]
    exact inv.mono hserved
  cases h with
  | usrHandler2 | manager | sendAsk | sendMlt => exact hstay rfl fun _ hc => hc
  | server s l srv hs =>
      rcases hs.main_client with ⟨hclient, _⟩ | hcrashed
      · exact hstay (works_setSrv_of_eq hclient) fun _ hc => hc
      · change Serving (x.setSrv s srv).works x.Served
        rw [works_setSrv, hcrashed]
        exact inv.crash s
  | takePacket w s sender left packet hw hwire =>
      have htaken : (x.setSrv s { x.srv s with wire := none }).works = x.works :=
        works_setSrv_of_eq rfl
      refine hstay (Eq.trans ?_ htaken) fun _ hc => hc
      exact works_setSrv_of_eq rfl
  | replyPacket w source sender entry left hw =>
      have hacked : (x.setSrv source { x.srv source with ack := true }).works = x.works :=
        works_setSrv_of_eq rfl
      refine hstay (Eq.trans ?_ hacked) fun _ hc => hc
      exact works_setSrv_of_eq rfl
  | accept s c request hc hmain haccept =>
      have hnot : (x.client c).point ≠ .served := by simp [hc]
      change Serving (x.setSrv s _).works _
      rw [works_setSrv]
      refine (inv.take hnot s).mono fun d hd => ?_
      rcases hd with rfl | hd
      · exact congrArg Client.State.point (Function.update_self d _ x.client)
      · exact served_setClient (ne_of_served hnot hd) hd
  | answer s c request done getValue hmain =>
      have hs : x.works s = some c := by simp [State.works, hmain, Main.client]
      change Serving (x.setSrv s _).works _
      rw [works_setSrv]
      exact (inv.finish hs).mono fun d hd => served_setClient hd.1 hd.2
  | refuse s c request reply hc hmain hrefuse =>
      exact hstay rfl fun d hd => served_setClient (ne_of_served (by simp [hc]) hd) hd
  | clientSend c key reqType hc =>
      exact hstay rfl fun d hd => served_setClient (ne_of_served (by simp [hc]) hd) hd
  | clientRecv c reply hc =>
      exact hstay rfl fun d hd => served_setClient (ne_of_served (by simp [hc]) hd) hd
  | _ => exact hstay (works_setSrv_of_eq rfl) fun _ hc => hc

/-! ## What is kept -/

/-- When the keys are to be kept apart: a table is on its way only while no client has a
request under way, one at a time, and none is sent out before all are done with the last. -/
structure Phased (x : State n nb A C) : Prop where
  one : ∀ s, (x.srv s).pending.count .commit ≤ 1
  apart : (∀ s, (x.srv s).pending = []) ∨ ∀ c, (x.client c).point = .idle
  sent : x.mgr.point = .sendMlt →
    (∀ s, (x.srv s).pending = []) ∧ ∀ c, (x.client c).point = .idle

omit [Eacl A n] [DecidableEq C] in
/-- Without a request of a client under way the main loops work for nobody. -/
theorem main_client_eq_none {x : State n nb A C} (serving : Serving x.works x.Served)
    (hidle : ∀ c, (x.client c).point = .idle) (s : Fin nb) :
    (x.srv s).main.client = none := by
  by_contra hne
  obtain ⟨c, hc⟩ := Option.ne_none_iff_exists'.mp hne
  have hserved : (x.client c).point = .served := serving.served s c hc
  rw [hidle c] at hserved
  cases hserved

variable [NeZero nb]

/-- What holds of the servers, the clients and the tables sent out. -/
structure KeptInv (hash : Key → Fin n) (x : State n nb A C) : Prop where
  hand : ∃ h, HandInv hash h x
  issued : IssuedInv x
  history : HistoryInv x.mgr x.log.mlts
  replica : ∀ s, ReplicaInv x.log.mlts s (x.srv s)
  serving : Serving x.works x.Served
  owned : ∀ s, ∀ request ∈ (x.srv s).main.request, curOwner x.log.mlts request.index = s

section Kept

variable {hash : Key → Fin n} {x y : State n nb A C} {l : Label nb C}

omit [Eacl A n] [DecidableEq C] in
theorem KeptInv.latest (inv : KeptInv hash x) (phased : Phased x) (s : Fin nb) :
    Latest (prevOwner x.log.mlts) (curOwner x.log.mlts) s (x.srv s) :=
  latest_of_inv inv.history (inv.replica s) (phased.one s)

omit [Eacl A n] [DecidableEq C] in
/-- No sender meets a request. -/
theorem KeptInv.drainsAlone (inv : KeptInv hash x) (phased : Phased x) (l : Label nb C) :
    DrainsAlone l x := by
  cases l with
  | server s l =>
      rcases phased.apart with hpending | hidle
      · exact looksAlone_of_pending (hpending s) l
      · exact looksAlone_of_client (main_client_eq_none inv.serving hidle s) l
  | _ => trivial

omit [Eacl A n] [DecidableEq C] in
/-- A server without a table in hand has the last one. -/
theorem ReplicaInv.rows_of_pending {mlts : List (MltPacket n nb)} {s : Fin nb}
    {srv : Server.State n nb A C} (inv : ReplicaInv mlts s srv) (hpending : srv.pending = []) :
    srv.table.idSrv = curOwner mlts := by
  have hfinished : Finished srv := by simp [Finished, hpending]
  have hplans := plans_of_finished inv hfinished
  have hhand : inHandMlt srv.listener = [] := by
    have hqueue := inv.queue
    rw [hplans, List.drop_length] at hqueue
    exact (List.append_eq_nil_iff.mp hqueue).1
  rw [curOwner, ← hplans]
  exact (inv.rows hhand).1

/-- The hand-over and the keys at a step. -/
theorem HandInv.step {h : Handover.State (Fin nb) (Fin n)} (hand : HandInv hash h x)
    (latest : ∀ s, Latest (prevOwner x.log.mlts) (curOwner x.log.mlts) s (x.srv s))
    (hsent : x.mgr.point = .sendMlt → ∀ s, (x.srv s).pending = [])
    (howner : ∀ s c request, (x.client c).point = .sent s request →
      distributionPostReceive (x.srv s).table request = .accepted →
      (x.srv s).table.idSrv request.index = s)
    (halone : DrainsAlone l x) (hstep : Step hash x l y) : ∃ h', HandInv hash h' y := by
  obtain ⟨h', hnext, rep'⟩ :=
    hand.rep.step hand.inv latest hsent (noError_of_keyInv hand.key) hstep
  have hinv' : Handover.Inv h' := by
    rcases hnext with rfl | hnext
    · exact hand.inv
    · exact hand.inv.step hnext
  exact ⟨h', hinv', rep', hand.named.step hstep,
    keyInv_next hand.named howner hand.rep hand.inv rep' hinv' hnext hand.key halone hstep⟩

/-- A request goes where the last table says. -/
theorem KeptInv.owned_step (inv : KeptInv hash x) (phased : Phased x) (h : Step hash x l y) :
    ∀ s, ∀ request ∈ (y.srv s).main.request, curOwner y.log.mlts request.index = s := by
  let P : Fin nb → Server.State n nb A C → Prop := fun s srv =>
    ∀ request ∈ srv.main.request, curOwner x.log.mlts request.index = s
  have hset : ∀ {s} {srv : Server.State n nb A C}, srv.main.request = (x.srv s).main.request →
      ∀ w, P w ((x.setSrv s srv).srv w) := fun {s srv} hmain =>
    forall_setSrv (P := P) inv.owned fun request hmem => inv.owned s request (hmain ▸ hmem)
  cases h with
  | usrHandler2 | manager | sendAsk | refuse | clientSend | clientRecv => exact inv.owned
  | sendMlt hp =>
      intro s request hmem
      have hmain := main_client_eq_none inv.serving (phased.sent hp).2 s
      change request ∈ (x.srv s).main.request at hmem
      rw [Main.request_eq_none hmain] at hmem
      cases hmem
  | server s l srv hs =>
      rcases hs.main_client with ⟨_, hrequest⟩ | hcrashed
      · exact hset hrequest
      · refine forall_setSrv (P := P) inv.owned fun request hmem => ?_
        rw [hcrashed] at hmem
        cases hmem
  | takePacket w s sender left packet hw hwire =>
      have htaken : ∀ v, P v ((x.setSrv s { x.srv s with wire := none }).srv v) := hset rfl
      exact forall_setSrv (P := P) htaken (htaken w)
  | replyPacket w source sender entry left hw =>
      have hacked : ∀ v, P v ((x.setSrv source { x.srv source with ack := true }).srv v) :=
        hset rfl
      exact forall_setSrv (P := P) hacked (hacked w)
  | accept s c request hc hmain haccept =>
      rw [setLog_log, Log.accepted_mlts]
      refine forall_setSrv (P := P) inv.owned ?_
      rintro request' hmem
      cases hmem
      have hpending := phased.apart.resolve_right fun hidle => by
        rw [hidle c] at hc
        cases hc
      rw [← (inv.replica s).rows_of_pending (hpending s)]
      exact owner_of_accept inv.history inv.issued hc haccept
  | answer s c request done getValue hmain =>
      rw [setLog_log, Log.answered_mlts]
      refine forall_setSrv (P := P) inv.owned ?_
      rintro request' hmem
      cases hmem
  | _ => exact hset rfl

/-- A step at which clients and transfers are apart keeps all of it. -/
theorem KeptInv.step (inv : KeptInv hash x) (phased : Phased x) (hstep : Step hash x l y) :
    KeptInv hash y where
  hand := by
    obtain ⟨h, hand⟩ := inv.hand
    exact hand.step (inv.latest phased) (fun hp => (phased.sent hp).1)
      (fun _ _ _ hc => owner_of_accept inv.history inv.issued hc) (inv.drainsAlone phased l) hstep
  issued := inv.issued.step hstep
  history := inv.history.step hstep
  replica := replicaInv_step inv.history inv.replica hstep
  serving := serving_step inv.serving hstep
  owned := inv.owned_step phased hstep

end Kept

/-! ## What else may happen -/

section Other

variable {hash : Key → Fin n} {x : State n nb A C}

omit [Eacl A n] [DecidableEq C] in
/-- The manager goes on. -/
theorem KeptInv.setMgr (inv : KeptInv hash x) {mgr : Manager.State n nb}
    (hhistory : HistoryInv mgr x.log.mlts) : KeptInv hash (x.setMgr mgr) where
  hand := by
    obtain ⟨h, hand⟩ := inv.hand
    exact ⟨h, hand.inv, ⟨hand.rep.prev, hand.rep.cur, hand.rep.srv, hand.rep.dest⟩,
      ⟨hand.named.client, hand.named.srv⟩, hand.key⟩
  issued := inv.issued.setMgr mgr
  history := hhistory
  replica := inv.replica
  serving := inv.serving
  owned := inv.owned

omit [Eacl A n] [DecidableEq C] in
/-- The access list of a server is changed. -/
theorem KeptInv.setAccessList (inv : KeptInv hash x) (s : Fin nb) (a : A) :
    KeptInv hash (x.setSrv s { x.srv s with accessList := a }) where
  hand := by
    obtain ⟨h, hand⟩ := inv.hand
    refine ⟨h, hand.inv, ?_, ⟨hand.named.client, ?_⟩, ?_⟩
    · refine hand.rep.congr ?_ (forall_setSrv (P := SameTransfer x) ?_ ?_)
      · rfl
      · exact fun _ => ⟨rfl, rfl⟩
      · exact ⟨rfl, rfl⟩
    · have named := hand.named.srv s
      exact forall_setSrv (P := fun _ srv => srv.Named hash) hand.named.srv
        ⟨named.listed, named.popped, named.packed, named.wired, named.waiting, named.request⟩
    · exact forall_setSrv (P := fun s srv => KeyInv hash h x.log.live s srv) hand.key
        ((hand.key s).congr rfl rfl rfl rfl rfl)
  issued := inv.issued.setSrv_of_eq rfl rfl rfl
  history := inv.history
  replica := forall_setSrv (P := fun s srv => ReplicaInv x.log.mlts s srv) inv.replica
    ⟨(inv.replica s).le, (inv.replica s).queue, (inv.replica s).plans, (inv.replica s).rows,
      (inv.replica s).update⟩
  serving := by
    have hworks : (x.setSrv s { x.srv s with accessList := a }).works = x.works :=
      works_setSrv_of_eq rfl
    rw [hworks]
    exact inv.serving
  owned := forall_setSrv (P := fun s srv => ∀ request ∈ srv.main.request,
    curOwner x.log.mlts request.index = s) inv.owned (inv.owned s)

omit [Eacl A n] in
/-- A client process is started in the place of one that has come to its end. -/
theorem KeptInv.startClient (inv : KeptInv hash x) {c : C}
    (hc : (x.client c).point = .idle) :
    KeptInv hash (x.setClient c (Client.State.init n nb)) where
  hand := by
    obtain ⟨h, hand⟩ := inv.hand
    refine ⟨h, hand.inv, ⟨hand.rep.prev, hand.rep.cur, hand.rep.srv, hand.rep.dest⟩,
      ⟨?_, hand.named.srv⟩, hand.key⟩
    exact forall_setClient (P := fun _ client => Indexed hash client) hand.named.client
      fun _ _ hp => by cases hp
  issued := by
    apply inv.issued.setClient
    · exact fun _ => ⟨initPacket n nb, List.mem_cons_self, rfl, rfl⟩
    · exact fun _ _ hp => by cases hp
    · exact fun _ _ _ hp => by cases hp
  history := inv.history
  replica := inv.replica
  serving := inv.serving.mono fun d hd => served_setClient (ne_of_served (by simp [hc]) hd) hd
  owned := inv.owned

end Other

omit [DecidableEq C] in
theorem keptInv_init (hash : Key → Fin n) : KeptInv hash (init n nb A C) where
  hand := ⟨_, Handover.inv_init _, represents_init, namedInv_init, keyInv_init⟩
  issued := issuedInv_init
  history := historyInv_init
  replica := replicaInv_init
  serving := ⟨fun _ _ hs => (by cases hs), fun _ _ _ hs => (by cases hs)⟩
  owned := fun _ _ hmem => by cases hmem

/-! ## The keys are one set -/

section Requests

variable {hash : Key → Fin n} {x : State n nb A C}

omit [Eacl A n] [DecidableEq C] in
/-- Without a table under way the last one says who holds what. -/
theorem HandInv.holder_of_pending {h : Handover.State (Fin nb) (Fin n)} (hand : HandInv hash h x)
    (hpending : ∀ s, (x.srv s).pending = []) :
    (∀ s, (h.srv s).phase = .settled) ∧ ∀ e, h.holder e = curOwner x.log.mlts e := by
  have hsettled : ∀ s, (h.srv s).phase = .settled := fun s => by
    rw [hand.rep.srv]
    exact settled_of_pending (hpending s)
  refine ⟨hsettled, fun e => ?_⟩
  rw [hand.inv.holder_of_settled hsettled, hand.rep.cur]

omit [Eacl A n] [DecidableEq C] in
/-- Only the holder of its entry has anything of a key. -/
theorem HandInv.eq_holder {h : Handover.State (Fin nb) (Fin n)} (hand : HandInv hash h x)
    {w : Fin nb} {k : Key} (hholds : (x.srv w).Holds k) : w = h.holder (hash k) := by
  obtain ⟨spot, has, haway, _⟩ := (hand.key w).key k
  have hpresent := has.holds_iff.mp hholds
  by_contra hne
  rw [haway hne] at hpresent
  exact hpresent

omit [Eacl A n] [DecidableEq C] in
/-- A key that is kept is in one place. -/
theorem HandInv.placed {h : Handover.State (Fin nb) (Fin n)} (hand : HandInv hash h x) {k : Key}
    (hlive : x.log.live k = true) : ∃ spot, spot.Kept ∧
      (x.srv (h.holder (hash k))).Has (hash k) k spot ∧
      ∀ w, w ≠ h.holder (hash k) → (x.srv w).Has (hash k) k .nowhere := by
  obtain ⟨spot, has, _, hkept⟩ := (hand.key (h.holder (hash k))).key k
  refine ⟨spot, hkept rfl hlive, has, fun w hw => ?_⟩
  obtain ⟨spot', has', haway, _⟩ := (hand.key w).key k
  exact haway hw ▸ has'

omit [Eacl A n] [DecidableEq C] in
/-- While the clients run, what there is of the key of a request is its file at the server
that works on it. -/
theorem KeptInv.holds_of_request (inv : KeptInv hash x) (hpending : ∀ s, (x.srv s).pending = [])
    {s : Fin nb} {request : Request n} (hmem : request ∈ (x.srv s).main.request)
    {w : Fin nb} (hholds : (x.srv w).Holds request.key) :
    w = s ∧ (x.srv s).store request.key ≠ none := by
  obtain ⟨h, hand⟩ := inv.hand
  obtain ⟨hsettled, hholder⟩ := hand.holder_of_pending hpending
  have howner : h.holder (hash request.key) = s := by
    rw [hholder, ← (hand.named.srv s).request request hmem]
    exact inv.owned s request hmem
  have hw : w = s := (hand.eq_holder hholds).trans howner
  subst hw
  obtain ⟨spot, has, _, _⟩ := (hand.key w).key request.key
  have hpresent := has.holds_iff.mp hholds
  refine ⟨rfl, has.file.mpr ?_⟩
  by_cases hkept : spot.Kept
  · exact Or.inl (stored_of_settled hand.rep hand.inv hsettled
      (has.inHand (hand.named.srv w)) hkept)
  · cases spot with
    | created => exact Or.inr (Or.inl rfl)
    | nowhere | deleted => exact hpresent.elim
    | _ => exact absurd trivial hkept

omit [Eacl A n] [DecidableEq C] in
/-- A storage operation is an operation on the set of keys. -/
theorem KeptInv.setSpec_of_storage (inv : KeptInv hash x) (phased : Phased x) {s : Fin nb}
    {c : C} {request : Request n} (hmain : (x.srv s).main = .storage c request)
    {store : Store} {done : Bool} {getValue : Option Data}
    (hstore : storageOperation (x.srv s).store request = .returned store done getValue) :
    SetSpec (request.key, request.reqType) (keysOf x) done
      (keysOf (x.setSrv s { x.srv s with
        store := store
        main := .preSend c request done getValue })) := by
  obtain ⟨h, hand⟩ := inv.hand
  refine hand.setSpec_of_storage hmain hstore fun k hk w hholds => ?_
  have hpending := phased.apart.resolve_right fun hidle => by
    have hserved : (x.client c).point = .served :=
      inv.serving.served s c (by simp [State.works, hmain, Main.client])
    rw [hidle c] at hserved
    cases hserved
  obtain ⟨rfl, hmissing⟩ := eq_of_missedUpdate hmain hk
  exact (inv.holds_of_request hpending (by rw [hmain]; rfl) hholds).2 hmissing

end Requests

end MeDiE.System
