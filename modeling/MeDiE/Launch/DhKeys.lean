import MeDiE.Launch.DhAcks
import MeDiE.Manager.RelabDownhill

/-!
# The keys under `launch_all.sh` with `manager_dh.c`

The script runs clients in their part of a step only, and it goes on from the rest of a
step when every server has taken over the table.  So no request meets a transfer, and what
`System.Phases` says of clients and transfers apart holds in every run.
-/

namespace MeDiE.LaunchDh

open MeDiE.EaclDh
open MeDiE.ManagerDh
open MeDiE.Storage
open MeDiE.Verified
open MeDiE.Verified.Transition
open MeDiE.System (KeptInv Phased HistoryInv HandInv Owns lastTable curOwner)

variable {n nb : Nat} {C : Type}

/-! ## Clients and transfers are apart -/

theorem Books.phased {x : State n nb C} [NeZero nb] (books : Books x) : Phased x.view where
  one s := by
    have hle := books.server s
    have hcount := List.count_le_length (a := Poll.Msg.commit) (l := (x.srv s).threads.pending)
    have hsent := Bool.toNat_le x.sent
    have htables := hle.tables
    show (x.srv s).threads.pending.count .commit ≤ 1
    omega
  apart := by
    by_cases hp : x.point = .clients
    · left
      have hsent : x.sent = false := books.not_sent (by rw [hp]; rfl)
      exact fun s => ((books.server s).pending_of_not_sent hsent).1
    · exact Or.inr (books.idle hp)
  sent hp := by
    have hmgr : x.mgr.point = .sendMlt := by
      cases hpoint : x.mgr.point <;> simp_all [State.view, asManager]
    obtain ⟨hsent, hmoving, _⟩ := books.not_sent_of_sendMlt hmgr
    refine ⟨fun s => ((books.server s).pending_of_not_sent hsent).1, books.idle fun hclients => ?_⟩
    rw [State.Moving, hclients] at hmoving
    cases hmoving.1

variable [NeZero nb]

/-! ## The manager -/

/-- A step of the manager keeps the history of the tables. -/
theorem historyInv_manager {mgr mgr' : ManagerDh.State n nb} {mlts : List (MltPacket n nb)}
    (inv : HistoryInv (asManager mgr) mlts) (h : LocalStep mgr mgr')
    (hp : mgr.point ≠ .sendMlt) : HistoryInv (asManager mgr') mlts := by
  have hrest : (asManager mgr).point ≠ .sendMlt := by
    cases hpoint : mgr.point <;> simp_all [asManager]
  cases h with
  | relabelling hcompute =>
      obtain ⟨hsrv, hver⟩ := inv.rest hrest
      refine ⟨inv.chain, fun e => ?_, fun hne => absurd rfl hne⟩
      rw [hsrv, hver]
      have hmoves := managerCalculateRelab_movesDownhill mgr.table mgr.globalList e
      constructor
      · intro heq
        rcases hmoves with ⟨_, hsame⟩ | ⟨hne, _⟩
        · exact hsame
        · exact absurd heq.symm hne
      · intro hne
        rcases hmoves with ⟨heq, _⟩ | ⟨_, hnew, _⟩
        · exact absurd heq.symm hne
        · exact hnew
  | sendMlt hsend => exact absurd hsend hp
  | poll | collected | clear => exact inv.of_table rfl hrest

/-! ## What is kept -/

section Kept

variable [DecidableEq C] {hash : Key → Fin n} {distrib : Nat} {x y : State n nb C}
  {l : Label nb C}

/-- What a step does to the system in it. -/
inductive ViewStep (hash : Key → Fin n) (x : State n nb C) :
    Label nb C → System.State n nb (EaclData n) C → Prop
  | threads (l : System.Label nb C) (y : System.State n nb (EaclData n) C)
      (h : System.Step hash x.view l y) : ViewStep hash x (.threads l) y
  | sendMlt (y : System.State n nb (EaclData n) C) (h : System.Step hash x.view .managerSend y) :
      ViewStep hash x .manager y
  | manager (mgr : ManagerDh.State n nb) (h : LocalStep x.mgr mgr) (hp : x.mgr.point ≠ .sendMlt) :
      ViewStep hash x .manager (x.view.setMgr (asManager mgr))
  | startClient (c : C) (hc : (x.view.client c).point = .idle) :
      ViewStep hash x (.startClient c) (x.view.setClient c (Client.State.init n nb))
  | handler (s : Fin nb) (i : Nat) (accessList : EaclData n) :
      ViewStep hash x (.handler s i)
        (x.view.setSrv s { x.view.srv s with accessList := accessList })
  | same (l : Label nb C) (y : System.State n nb (EaclData n) C) (hl : ∀ l', l ≠ .threads l')
      (hy : y = x.view) : ViewStep hash x l y

theorem Step.viewStep (h : Step hash distrib x l y) : ViewStep hash x l y.view := by
  -- the fields of a server besides `threads` are not seen
  have hunseen : ∀ (s : Fin nb) (srv : ServerDh.State n nb C), srv.threads = (x.srv s).threads →
      (x.setSrv s srv).view = x.view := fun s srv => view_setSrv_of_eq
  cases h with
  | threads l y hallowed h =>
      rw [view_afterThreads hallowed h]
      exact ViewStep.threads l y h
  | startClient c hp hc => exact ViewStep.startClient c (point_of_idle hc)
  | kill2 s left hp hs =>
      exact ViewStep.same _ _ (by simp) (hunseen s (ServerDh.usr2Handler (x.srv s)) rfl)
  | kill1 s left hp hs =>
      exact ViewStep.same _ _ (by simp) (hunseen s (ServerDh.usr1Handler (x.srv s)) rfl)
  | handler s i srv h =>
      obtain ⟨_, _, accessList, hthreads⟩ := h.same
      rw [view_setSrv, hthreads]
      exact ViewStep.handler s i accessList
  | createAck0 s measuring hs =>
      exact ViewStep.same _ _ (by simp) (hunseen s { x.srv s with measuring := measuring } rfl)
  | createAck1 s hs =>
      exact ViewStep.same _ _ (by simp) (hunseen s { x.srv s with acking := false } rfl)
  | manager mgr h hp => exact ViewStep.manager mgr h hp
  | publish hp =>
      exact ViewStep.sendMlt _ (System.Step.sendMlt (by simp [State.view, asManager, hp]))
  | managerRecv s nbRcv sai push hp hrcv hpush =>
      refine ViewStep.same _ _ (by simp) ?_
      have hmgr : asManager
          { x.mgr with
            globalList := managerMergeEacl x.mgr.globalList sai
            point := .collect (nbRcv + 1) } = asManager x.mgr := by
        simp [asManager, hp]
      show System.State.mk (asManager _) (x.setSrv s { x.srv s with push := push }).view.srv
        x.client x.view.log = x.view
      rw [hunseen s { x.srv s with push := push } rfl, hmgr]
      rfl
  | _ => exact ViewStep.same _ _ (by simp) rfl

theorem keptInv_next (kept : KeptInv hash x.view) (books : Books x)
    {z : System.State n nb (EaclData n) C} (h : ViewStep hash x l z) : KeptInv hash z := by
  cases h with
  | threads l z h => exact kept.step books.phased h
  | sendMlt z h => exact kept.step books.phased h
  | manager mgr h hp => exact kept.setMgr (historyInv_manager kept.history h hp)
  | startClient c hc => exact kept.startClient hc
  | handler s i accessList => exact kept.setAccessList s accessList
  | same l z hl hz => exact hz ▸ kept

end Kept

/-! ## Runs -/

variable [DecidableEq C] [Fintype C]

/-- What holds in every run. -/
structure Inv (hash : Key → Fin n) (x : State n nb C) : Prop where
  books : Books x
  kept : KeptInv hash x.view

omit [DecidableEq C] [Fintype C] in
theorem inv_init (hash : Key → Fin n) : Inv hash (init n nb C) where
  books :=
    { server := fun _ => ⟨rfl, rfl, fun _ hmem => absurd hmem List.not_mem_nil, rfl⟩
      round := Round.resting (Or.inr ⟨rfl, rfl⟩) (fun _ => rfl) (by simp [init])
      sent := by simp [init]
      found := trivial
      turn := Nat.one_pos
      idle := fun hne => absurd rfl hne }
  kept := System.keptInv_init hash

omit [Fintype C] in
theorem Inv.next {hash : Key → Fin n} {distrib : Nat} {x y : State n nb C} {l : Label nb C}
    (inv : Inv hash x) (h : Step hash distrib x l y) : Inv hash y :=
  ⟨inv.books.step inv.kept.serving h, keptInv_next inv.kept inv.books h.viewStep⟩

theorem inv_of_run {hash : Key → Fin n} {distrib : Nat} {x : State n nb C}
    (hx : Reach (init n nb C) (Steps (step hash distrib)) x) : Inv hash x := by
  apply hx.invariant (inv_init hash)
  rintro x y _ inv ⟨l, hl⟩
  exact inv.next (step_cases hl)

/-- In any run of the script and its processes nothing of a step is left over.  When
`manager_calculate_relab` runs it has merged one list of each server.  When its table is
sent no server has another one in hand, no file `vmXUSR-1` is there and no client has a
request under way.  And when the clients are run again every list has been merged, every
table taken over and every file created. -/
theorem step_closed (hash : Key → Fin n) (distrib : Nat) (x : State n nb C)
    (hx : Reach (init n nb C) (Steps (step hash distrib)) x) :
    (x.mgr.point = .relabelling → x.merged.Perm (List.finRange nb)) ∧
    (x.mgr.point = .sendMlt →
      (∀ c, (x.client c).point = .idle) ∧
        ∀ s, (x.srv s).threads.pending = [] ∧ (x.srv s).acking = false ∧ x.ack1 s = false) ∧
    (x.point = .clients → x.merged = [] ∧
      ∀ s, (x.srv s).push = [] ∧ (∀ handler ∈ (x.srv s).handlers, handler = .resetAccess) ∧
        (x.srv s).measuring = 0 ∧ x.ack0 s = false ∧
        (x.srv s).threads.pending = [] ∧ (x.srv s).acking = false ∧ x.ack1 s = false) := by
  have books := (inv_of_run hx).books
  refine ⟨fun hp => ?_, fun hp => ?_, fun hp => ?_⟩
  · apply books.merged_perm
    cases books.round with
    | resting hp' => simp [hp] at hp'
    | woken hp' => simp [hp] at hp'
    | collecting _ hp' => simp [hp] at hp'
    | collected _ _ _ hmerged => exact hmerged
  · obtain ⟨hsent, hmoving, _⟩ := books.not_sent_of_sendMlt hp
    refine ⟨books.idle fun hclients => ?_, fun s => (books.server s).pending_of_not_sent hsent⟩
    rw [State.Moving, hclients] at hmoving
    cases hmoving.1
  · have hmoving : ¬ x.Moving := by simp [State.Moving, hp, Point.waits]
    have hsent : x.sent = false := books.not_sent (by rw [hp]; rfl)
    refine ⟨(books.resting hmoving).2, fun s => ?_⟩
    have hs := books.server s
    have hreports := hs.reports
    have hmeasures := hs.measures
    rw [show x.signalled2 s = false by simp [State.signalled2, hp, Point.waits]] at hreports
    rw [show x.signalled1 s = false by simp [State.signalled1, hp, Point.waits]] at hmeasures
    have hnone : (x.srv s).push.length + (x.srv s).handlers.countP ServerDh.reporting = 0 :=
      (Nat.add_eq_zero_iff.mp hreports).1
    obtain ⟨hpush, hhandlers⟩ := Nat.add_eq_zero_iff.mp hnone
    obtain ⟨hmeasuring, hack0⟩ := Nat.add_eq_zero_iff.mp hmeasures
    refine ⟨List.length_eq_zero_iff.mp hpush, fun handler hmem => ?_, hmeasuring, ?_,
      hs.pending_of_not_sent hsent⟩
    · have hnot := List.countP_eq_zero.mp hhandlers handler hmem
      cases handler with
      | calculateSai => exact absurd rfl hnot
      | send => exact absurd rfl hnot
      | resetAccess => rfl
    · cases hack : x.ack0 s with
      | false => rfl
      | true => simp [hack] at hack0

/-! ## A run of two steps -/

section Sample

open MeDiE.System (keyA keyK sampleHash requestRun)

/-- The clients ask more often for key `k` than for key `a`. -/
def requestsRun : List (Label 2 Unit) :=
  (requestRun 0 keyA (.create .empty) ++ requestRun 0 keyA (.update .empty) ++
    requestRun 0 keyK (.create .empty) ++
    (List.replicate 5 (requestRun 0 keyK (.update .empty))).flatten).map .threads

/-- The servers and the manager are signalled, and the lists are collected. -/
def collectRun : List (Label 2 Unit) :=
  [.script, .kill 1, .kill 0, .script] ++ List.replicate 3 (.handler 0 0) ++
    [.script, .manager, .managerRecv 0] ++ List.replicate 3 (.handler 1 0) ++
    [.managerRecv 1, .manager]

/-- Entry 0 is given to server 1, and the script waits until it is there. -/
def moveRun : List (Label 2 Unit) :=
  [.manager, .manager, .manager] ++ (System.transferRun.drop 3).map .threads ++
    [.createAck1 1, .createAck1 0] ++ List.replicate 8 .script

/-- A client that has been sent to server 0 goes to server 1. -/
def retryRun : List (Label 2 Unit) :=
  [.threads (.clientSend () keyA .read), .threads (.mainRecv 0 ()), .threads (.clientRecv ())] ++
    (requestRun 1 keyA .read).map .threads

end Sample

/-- After the first step of the sample run, in which an entry has moved. -/
theorem step_closed_first_step :
    ∃ x : State 4 2 Unit, x.mlts ≠ [] ∧ x.point = .clients ∧ x.merged = [] ∧
      ∀ s, (x.srv s).push = [] ∧ x.ack1 s = false := by
  have hrun : ((run (step System.sampleHash 1) (requestsRun ++ collectRun ++ moveRun)
      (init 4 2 Unit)).any fun x => decide (x.mlts ≠ [] ∧ x.point = .clients)) = true := by
    decide +kernel
  obtain ⟨x, hx, hp⟩ := (Option.any_eq_true _ _).mp hrun
  obtain ⟨hmlts, hpoint⟩ := of_decide_eq_true hp
  obtain ⟨hmerged, hsrv⟩ :=
    (step_closed System.sampleHash 1 x (reach_of_run _ Reach.start hx)).2.2 hpoint
  exact ⟨x, hmlts, hpoint, hmerged, fun s => ⟨(hsrv s).1, (hsrv s).2.2.2.2.2.2⟩⟩

/-! ## Owners and keys -/

/-- In any run of the script and its processes, no two servers regard an entry as their own.
A key whose create has been done and that no delete has been started for is in one place.
And when the script runs clients every server has the last table, such a key is stored at
the owner of its entry, and a server that has the file of any key is the owner of its
entry. -/
theorem keys_in_place (hash : Key → Fin n) (distrib : Nat) (x : State n nb C)
    (hx : Reach (init n nb C) (Steps (step hash distrib)) x) :
    (∀ e s s', Owns x.view s e → Owns x.view s' e → s = s') ∧
    (∀ k, x.live k = true → ∃ s spot, spot.Kept ∧ (x.srv s).threads.Has (hash k) k spot ∧
      (∀ w, w ≠ s → (x.srv w).threads.Has (hash k) k .nowhere) ∧
      (x.point = .clients → s = curOwner x.mlts (hash k) ∧ spot = .stored)) ∧
    (x.point = .clients → ∀ s, (x.srv s).threads.table = lastTable x.mlts ∧
      ∀ k, (x.srv s).threads.store k ≠ none → s = curOwner x.mlts (hash k)) := by
  have inv := inv_of_run hx
  obtain ⟨h, hand⟩ := inv.kept.hand
  have hpending : x.point = .clients → ∀ s, (x.view.srv s).pending = [] := fun hp s =>
    ((inv.books.server s).pending_of_not_sent (inv.books.not_sent (by rw [hp]; rfl))).1
  refine ⟨fun e s s' hs hs' => ?_, fun k hlive => ?_, fun hp s => ⟨?_, fun k hk => ?_⟩⟩
  · rw [← System.active_iff_owns hand.rep] at hs hs'
    exact hand.inv.active_unique hs hs'
  · obtain ⟨spot, hkept, has, haway⟩ := hand.placed (k := k) hlive
    refine ⟨h.holder (hash k), spot, hkept, has, haway, fun hp => ?_⟩
    obtain ⟨hsettled, hholder⟩ := hand.holder_of_pending (hpending hp)
    exact ⟨hholder _, System.stored_of_settled hand.rep hand.inv hsettled
      (has.inHand (hand.named.srv _)) hkept⟩
  · refine System.table_of_finished hand.inv hand.rep inv.kept.replica (fun w => ?_) s
    show .commit ∉ (x.view.srv w).pending
    rw [hpending hp w]
    exact List.not_mem_nil
  · have hholds : (x.view.srv s).Holds k := Or.inl hk
    exact (hand.eq_holder hholds).trans ((hand.holder_of_pending (hpending hp)).2 _)

/-- Server 1 has the key whose entry has moved, and server 0 has no trace of it. -/
theorem keys_in_place_first_step :
    ∃ x : State 4 2 Unit, (x.srv 1).threads.Has 0 System.keyA .stored ∧
      (x.srv 0).threads.Has 0 System.keyA .nowhere := by
  have hrun : ((run (step System.sampleHash 1) (requestsRun ++ collectRun ++ moveRun)
      (init 4 2 Unit)).any fun x => decide (x.live System.keyA = true ∧ x.point = .clients ∧
        curOwner x.mlts 0 = 1)) = true := by
    decide +kernel
  obtain ⟨x, hx, hp⟩ := (Option.any_eq_true _ _).mp hrun
  obtain ⟨hlive, hpoint, howner⟩ := of_decide_eq_true hp
  obtain ⟨s, spot, _, has, haway, hmoreover⟩ :=
    (keys_in_place System.sampleHash 1 x (reach_of_run _ Reach.start hx)).2.1 System.keyA hlive
  obtain ⟨hs, rfl⟩ := hmoreover hpoint
  have hs : s = 1 := hs.trans howner
  subst hs
  exact ⟨x, has, haway 0 (by decide)⟩

/-! ## What the clients see -/

/-- A client sends a request, or processes the reply. -/
def recordEvents (l : Label nb C) (x y : State n nb C) (events : List (System.KeyEvent C)) :
    List (System.KeyEvent C) :=
  match l with
  | .threads l => System.recordEvents l x.view y.view events
  | _ => events

omit [Fintype C] in
/-- A step of a run is an operation on the set of keys, a call or the end of one, or is not
seen. -/
theorem simulates_next {hash : Key → Fin n} {distrib : Nat} {x y : State n nb C}
    {l : Label nb C} (inv : Inv hash x) (h : Step hash distrib x l y)
    {events : List (System.KeyEvent C)}
    {st : Linear.State C (Key × ReqType) Bool (Set Key)}
    (sim : System.Simulates x.view events st) :
    ∃ st', (st' = st ∨ Linear.Step System.SetSpec st st') ∧
      System.Simulates y.view (recordEvents l x y events) st' := by
  have hunseen : ∀ {z : System.State n nb (EaclData n) C}, System.keysOf z = System.keysOf x.view →
      System.waitsOf ∘ z.client = System.waitsOf ∘ x.view.client →
      System.deskOf ∘ z.srv = System.deskOf ∘ x.view.srv → ∃ st', (st' = st ∨
        Linear.Step System.SetSpec st st') ∧ System.Simulates z events st' :=
    fun hkeys hwaits hdesk => ⟨st, Or.inl rfl, sim.congr hkeys hwaits hdesk⟩
  have hview := h.viewStep
  generalize hz : y.view = z at hview
  cases hview with
  | threads l z h =>
      obtain ⟨_, hand⟩ := inv.kept.hand
      have hphased := inv.books.phased
      exact System.simulates_step System.SetSpec hand (inv.kept.drainsAlone hphased l) h
        (fun s c request store done getValue hmain hstore _ =>
          inv.kept.setSpec_of_storage hphased hmain hstore) sim
  | sendMlt z h =>
      cases h with
      | sendMlt hp => exact hunseen (System.keysOf_congr fun _ _ => Iff.rfl) rfl rfl
      | sendAsk epoch hp => exact hunseen (System.keysOf_congr fun _ _ => Iff.rfl) rfl rfl
  | manager mgr h hp => exact hunseen rfl rfl rfl
  | startClient c hc =>
      refine hunseen rfl ?_ rfl
      have hwaits : System.waitsOf (Client.State.init n nb) = System.waitsOf (x.view.client c) := by
        simp [System.waitsOf, hc, Client.State.init]
      rw [System.setClient_client, Function.comp_update, hwaits]
      exact Function.update_eq_self c (System.waitsOf ∘ x.view.client)
  | handler s i accessList =>
      exact hunseen (System.keysOf_setSrv fun _ => Iff.rfl) rfl (System.deskOf_setSrv_of_main rfl)
  | same l z hl hz =>
      have hevents : recordEvents l x y events = events := by
        unfold recordEvents
        split
        · exact absurd rfl (hl _)
        · rfl
      rw [hevents, hz]
      exact ⟨st, Or.inl rfl, sim⟩

/-- The answers that the clients get in any run of the script and its processes are those
of one set of keys, which each request finds as the ones before it have left it: a request
is worked on at one moment between its call and its answer, and a create or an update is
done if and only if the key is not yet, or is, in the set. -/
theorem set_linearizable (hash : Key → Fin n) (distrib : Nat)
    (x : State n nb C × List (System.KeyEvent C))
    (hx : Reach (init n nb C, []) (Steps (withHistory (step hash distrib) recordEvents)) x) :
    Linear.Linearizable System.SetSpec ∅ x.2 (System.keysOf x.1.view) := by
  refine Linear.linearizable_of_explains System.SetSpec
    (fun x : State n nb C × List (System.KeyEvent C) => System.keysOf x.1.view) Prod.snd
    (fun x => System.waitsOf ∘ x.1.view.client) (fun x => System.deskOf ∘ x.1.view.srv) ?_ ?_ hx
  · exact System.simulates_init
  · rintro x y st hx sim ⟨l, hl⟩
    obtain ⟨hy, hrecord⟩ := withHistory_eq_some.mp hl
    have hrun : Reach (init n nb C) (Steps (step hash distrib)) x.1 := by
      refine hx.simulation Prod.fst fun x y _ ⟨l, hl⟩ => Or.inr ⟨l, ?_⟩
      exact (withHistory_eq_some.mp hl).1
    rw [hrecord]
    exact simulates_next (inv_of_run hrun) (step_cases hy) sim

/-- In the second step a client reads the key at the server to which its entry has gone. -/
theorem set_linearizable_second_step :
    ∃ x : State 4 2 Unit × List (System.KeyEvent Unit),
      x.1.mlts ≠ [] ∧ (x.1.client ()).table.idSrv 0 = 1 ∧
      Linear.Linearizable System.SetSpec ∅ x.2 (System.keysOf x.1.view) := by
  have hrun : ((run (withHistory (step System.sampleHash 1) recordEvents)
      (requestsRun ++ collectRun ++ moveRun ++ retryRun) (init 4 2 Unit, [])).any
        fun x => decide (x.1.mlts ≠ [] ∧ (x.1.client ()).table.idSrv 0 = 1)) = true := by
    decide +kernel
  obtain ⟨x, hx, hp⟩ := (Option.any_eq_true _ _).mp hrun
  obtain ⟨hmlts, howner⟩ := of_decide_eq_true hp
  exact ⟨x, hmlts, howner, set_linearizable System.sampleHash 1 x (reach_of_run _ Reach.start hx)⟩

end MeDiE.LaunchDh
