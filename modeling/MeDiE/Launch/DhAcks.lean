import MeDiE.Launch.Dh
import MeDiE.Launch.Run
import MeDiE.System.Phases

/-!
# The acks of a step with `manager_dh.c`

A list that a server puts on its socket does not say for which step it is, and neither
does an ack file.  What keeps the steps apart is that nothing of a step is left when the
script removes the files.  With `SIGUSR1` a server creates its file after the handler has
run.  With `SIGUSR2` it creates it after the table, which the manager sends when it has as
many lists as there are servers, and these are one list of every server.
-/

namespace MeDiE.Server

variable {n nb : Nat} {A C : Type} [Eacl A n]

/-- A listener with tables only takes one over, or it is done with one. -/
theorem Step.pending_of_commits {s : Fin nb} {srv srv' : State n nb A C}
    (h : Step s srv .listener srv') (hcommits : ∀ msg ∈ srv.pending, msg = .commit) :
    (∃ sender receiver, srv.listener = .transfer sender receiver) ∧
        srv.pending = .commit :: srv'.pending ∨
      (∀ sender receiver, srv.listener ≠ .transfer sender receiver) ∧
        srv'.pending = srv.pending := by
  by_cases htransfer : ∃ sender receiver, srv.listener = .transfer sender receiver
  · refine Or.inl ⟨htransfer, ?_⟩
    obtain ⟨sender, receiver, hl⟩ := htransfer
    cases h with
    | join sender' receiver' hl' => simp [State.pending, hl, handling]
    | crash _ hnull => cases hnull
    | _ => simp_all
  · push Not at htransfer
    refine Or.inr ⟨htransfer, ?_⟩
    rcases Launch.pending_listener h htransfer with hsame | hask
    · exact hsame
    · have hmem := hcommits .ask (by rw [hask]; exact List.mem_cons_self)
      cases hmem

end MeDiE.Server

namespace MeDiE.LaunchDh

open MeDiE.EaclDh
open MeDiE.ManagerDh
open MeDiE.Storage
open MeDiE.System (Serving Phased)

variable {n nb : Nat} {C : Type}

/-! ## What a step of the script has done -/

/-- The script waits for the files. -/
def Point.waits : Point nb → Bool
  | .clients => false
  | .signal2 _ => false
  | .signalManager => false
  | .signal1 _ => false
  | .wait _ => true
  | .search => true
  | .wait1 _ => true
  | .remove => true

/-- `SIGUSR2` of the step has been sent to the server. -/
def State.signalled2 (x : State n nb C) (s : Fin nb) : Bool :=
  match x.point with
  | .signal2 left => !left.contains s
  | .signalManager => true
  | p => p.waits && x.turn == 1

/-- `SIGUSR1` of the step has been sent to the server. -/
def State.signalled1 (x : State n nb C) (s : Fin nb) : Bool :=
  match x.point with
  | .signal1 left => !left.contains s
  | p => p.waits && x.turn != 1

/-- The manager has been signalled in this step. -/
def State.Moving (x : State n nb C) : Prop := x.point.waits = true ∧ x.turn = 1

/-- The file of the server is there. -/
def State.Acked (x : State n nb C) (s : Fin nb) : Prop := x.ack0 s = true ∨ x.ack1 s = true

/-- What has become of the signals of the step at a server, and of the table. -/
structure ServerBooks (x : State n nb C) (s : Fin nb) : Prop where
  reports : (x.srv s).reports + x.merged.count s = (x.signalled2 s).toNat
  measures : (x.srv s).measuring + (x.ack0 s).toNat = (x.signalled1 s).toNat
  commits : ∀ msg ∈ (x.srv s).threads.pending, msg = .commit
  tables : (x.srv s).threads.pending.length + (x.srv s).acking.toNat + (x.ack1 s).toNat =
    x.sent.toNat

/-- How far the manager has come.  A signal that finds it before `update_needed = false`
is lost: it rests then, with no list of the step merged and no table sent. -/
inductive Round (x : State n nb C) : Prop
  | resting (hp : x.mgr.point = .clear ∨ x.mgr.point = .poll ∧ x.mgr.updateNeeded = false)
      (hmerged : x.sent = false → x.merged = []) (hsent : x.sent = true → x.merged.length = nb)
  | woken (hp : x.mgr.point = .poll) (hmoving : x.Moving) (hsent : x.sent = false)
      (hmerged : x.merged = [])
  | collecting (nbRcv : Nat) (hp : x.mgr.point = .collect nbRcv) (hmoving : x.Moving)
      (hsent : x.sent = false) (hmerged : x.merged.length = nbRcv) (hle : nbRcv ≤ nb)
  | collected (hp : x.mgr.point = .relabelling ∨ x.mgr.point = .sendMlt) (hmoving : x.Moving)
      (hsent : x.sent = false) (hmerged : x.merged.length = nb)

/-- What the script has found. -/
def Found (x : State n nb C) : Prop :=
  match x.point with
  | .clients => True
  | .signal2 left => left.Nodup
  | .signalManager => True
  | .signal1 left => left.Nodup ∧ x.turn ≠ 1
  | .wait i => ∀ s : Fin nb, s.val < i → x.Acked s
  | .search => ∀ s, x.Acked s
  | .wait1 _ => ∀ s, x.Acked s
  | .remove => ∀ s, x.Acked s

structure Books (x : State n nb C) : Prop where
  server : ∀ s, ServerBooks x s
  round : Round x
  sent : x.sent = true → x.Moving
  found : Found x
  turn : 0 < x.turn
  idle : x.point ≠ .clients → ∀ c, (x.client c).point = .idle

/-! ## What follows -/

theorem ServerBooks.pending_of_not_sent {x : State n nb C} {s : Fin nb} (inv : ServerBooks x s)
    (hsent : x.sent = false) :
    (x.srv s).threads.pending = [] ∧ (x.srv s).acking = false ∧ x.ack1 s = false := by
  have htables := inv.tables
  rw [hsent] at htables
  simpa [and_assoc] using htables

theorem Books.not_sent {x : State n nb C} (inv : Books x) (hp : x.point.waits = false) :
    x.sent = false := by
  by_contra hne
  have hmoving := (inv.sent (Bool.eq_true_of_not_eq_false hne)).1
  rw [hp] at hmoving
  cases hmoving

/-- Where the manager is when the script does not wait for a table. -/
theorem Books.resting {x : State n nb C} (inv : Books x) (hmoving : ¬ x.Moving) :
    (x.mgr.point = .clear ∨ x.mgr.point = .poll ∧ x.mgr.updateNeeded = false) ∧
      x.merged = [] := by
  have hsent : x.sent = false := by
    by_contra hne
    exact hmoving (inv.sent (Bool.eq_true_of_not_eq_false hne))
  cases inv.round with
  | resting hp hmerged _ => exact ⟨hp, hmerged hsent⟩
  | woken _ hmoving' => exact absurd hmoving' hmoving
  | collecting _ _ hmoving' => exact absurd hmoving' hmoving
  | collected _ hmoving' => exact absurd hmoving' hmoving

theorem Books.not_sent_of_sendMlt {x : State n nb C} (inv : Books x)
    (hp : x.mgr.point = .sendMlt) : x.sent = false ∧ x.Moving ∧ x.merged.length = nb := by
  cases inv.round with
  | resting hp' => simp [hp] at hp'
  | woken hp' => simp [hp] at hp'
  | collecting _ hp' => simp [hp] at hp'
  | collected _ hmoving hsent hmerged => exact ⟨hsent, hmoving, hmerged⟩

/-- As many lists as there are servers, and at most one of each, are one of each. -/
theorem ServerBooks.count_le {x : State n nb C} {s : Fin nb} (inv : ServerBooks x s) :
    x.merged.count s ≤ 1 :=
  (Nat.le_add_left _ _).trans (inv.reports.le.trans (Bool.toNat_le _))

theorem Books.merged_perm {x : State n nb C} (inv : Books x) (hmerged : x.merged.length = nb) :
    x.merged.Perm (List.finRange nb) := by
  have hnodup : x.merged.Nodup :=
    List.nodup_iff_count_le_one.mpr fun s => (inv.server s).count_le
  apply (List.subperm_of_subset hnodup fun s _ => List.mem_finRange s).perm_of_length_le
  rw [List.length_finRange, hmerged]

/-! ## Steps of threads and clients -/

section Threads

variable [NeZero nb] [DecidableEq C] {hash : Key → Fin n} {x : State n nb C}
  {y : System.State n nb (EaclData n) C} {l : System.Label nb C}

/-- Threads and clients leave the manager and the tables as they are. -/
theorem same_of_allowed (hallowed : allowed x l = true) (h : System.Step hash x.view l y) :
    y.mgr = x.view.mgr ∧
      y.log =
        { x.view.log with live := y.log.live } := by
  cases h with
  | accept s c request hc hmain haccept =>
      refine ⟨rfl, ?_⟩
      simp only [System.setLog_log, System.Log.accepted]
      split <;> rfl
  | answer s c request done getValue hmain =>
      refine ⟨rfl, ?_⟩
      simp only [System.setLog_log, System.Log.answered]
      split <;> rfl
  | server | takePacket | replyPacket | refuse | clientSend | clientRecv => exact ⟨rfl, rfl⟩
  | _ => cases hallowed

omit [NeZero nb] [DecidableEq C] in
/-- What a thread changes of a server besides `threads` is the ack. -/
theorem afterThreads_cases (x : State n nb C) (l : System.Label nb C)
    (y : System.State n nb (EaclData n) C) :
    (∀ s, l = .server s .listener →
        ∀ sender receiver, (x.srv s).threads.listener ≠ .transfer sender receiver) ∧
        afterThreads x l y = x.put y ∨
      ∃ s sender receiver, l = .server s .listener ∧
        (x.srv s).threads.listener = .transfer sender receiver ∧
        afterThreads x l y = (x.put y).setSrv s { (x.put y).srv s with acking := true } := by
  unfold afterThreads
  split
  · rename_i s
    split
    · exact Or.inr ⟨_, _, _, rfl, ‹_›, rfl⟩
    · rename_i hne
      refine Or.inl ⟨?_, rfl⟩
      rintro _ ⟨⟩
      exact hne
  · rename_i hne
    exact Or.inl ⟨fun s heq => absurd heq (hne s), rfl⟩

omit [DecidableEq C] in
theorem view_setSrv (x : State n nb C) (s : Fin nb) (srv : ServerDh.State n nb C) :
    (x.setSrv s srv).view = x.view.setSrv s srv.threads := by
  have hsrv : (fun w => ((x.setSrv s srv).srv w).threads) =
      Function.update (fun w => (x.srv w).threads) s srv.threads :=
    funext fun w => Function.apply_update (fun _ => ServerDh.State.threads) x.srv s srv w
  unfold State.view System.State.setSrv
  rw [hsrv]
  rfl

omit [DecidableEq C] in
theorem view_setSrv_of_eq {x : State n nb C} {s : Fin nb} {srv : ServerDh.State n nb C}
    (h : srv.threads = (x.srv s).threads) : (x.setSrv s srv).view = x.view := by
  rw [view_setSrv, h]
  unfold System.State.setSrv
  rw [show Function.update x.view.srv s (x.srv s).threads = x.view.srv from
    Function.update_eq_self s x.view.srv]

/-- After a step of theirs the threads and clients are those of the system. -/
theorem view_afterThreads (hallowed : allowed x l = true) (h : System.Step hash x.view l y) :
    (afterThreads x l y).view = y := by
  have hput : (x.put y).view = y := by
    obtain ⟨hmgr, hlog⟩ := same_of_allowed hallowed h
    have hlog' : (x.put y).view.log = y.log := hlog.symm
    have hmgr' : (x.put y).view.mgr = y.mgr := hmgr.symm
    calc (x.put y).view
        = ⟨(x.put y).view.mgr, y.srv, y.client, (x.put y).view.log⟩ := rfl
      _ = y := by rw [hmgr', hlog']
  rcases afterThreads_cases x l y with ⟨_, heq⟩ | ⟨s, _, _, _, _, heq⟩
  · rw [heq, hput]
  · rw [heq]
    refine Eq.trans ?_ hput
    exact view_setSrv_of_eq rfl

/-- A thread does to what is pending at a server nothing, but that a listener finishes with
a table. -/
theorem pending_of_allowed (hallowed : allowed x l = true) (h : System.Step hash x.view l y)
    (hcommits : ∀ s, ∀ msg ∈ (x.srv s).threads.pending, msg = .commit) (w : Fin nb) :
    (∃ sender receiver, l = .server w .listener ∧
        (x.srv w).threads.listener = .transfer sender receiver) ∧
        (x.srv w).threads.pending = .commit :: (y.srv w).pending ∨
      (l = .server w .listener →
        ∀ sender receiver, (x.srv w).threads.listener ≠ .transfer sender receiver) ∧
        (y.srv w).pending = (x.srv w).threads.pending := by
  have hother : ∀ {s : Fin nb} {l'} {srv : Server.State n nb (EaclData n) C}, l = .server s l' →
      srv.pending = (x.srv s).threads.pending → (l' = .listener →
        ∀ sender receiver, (x.srv s).threads.listener ≠ .transfer sender receiver) →
      (l = .server w .listener →
        ∀ sender receiver, (x.srv w).threads.listener ≠ .transfer sender receiver) ∧
        ((x.view.setSrv s srv).srv w).pending = (x.srv w).threads.pending := by
    rintro s l' srv rfl hpending hl
    constructor
    · rintro ⟨⟩
      exact hl rfl
    · by_cases hw : w = s
      · subst hw
        simpa using hpending
      · simp [hw, State.view]
  cases l with
  | server s l' =>
      cases h with
      | server _ _ srv hs =>
          cases l' with
          | usr2 | handler => cases hallowed
          | listener =>
              rcases Server.Step.pending_of_commits hs (hcommits s) with
                ⟨⟨sender, receiver, hl⟩, hpending⟩ | ⟨hl, hpending⟩
              · by_cases hw : w = s
                · subst hw
                  exact Or.inl ⟨⟨sender, receiver, rfl, hl⟩, by simpa [State.view] using hpending⟩
                · refine Or.inr ⟨fun heq => ?_, by simp [hw, State.view]⟩
                  cases heq
                  exact absurd rfl hw
              · exact Or.inr (hother rfl hpending fun _ => hl)
          | sender | receiver | main =>
              refine Or.inr (hother rfl ?_ (by simp))
              exact (System.kept_server hs (by simp)).pending
  | usrHandler2 | manager | managerRecv | managerSend => cases hallowed
  | _ =>
      refine Or.inr ⟨by simp, ?_⟩
      exact (h.kept (by simp) (by simp) w).pending

end Threads

/-! ## What a step does to the books -/

theorem ServerBooks.congr {x y : State n nb C} {s : Fin nb} (inv : ServerBooks x s)
    (hsrv : y.srv s = x.srv s) (hack0 : y.ack0 s = x.ack0 s) (hack1 : y.ack1 s = x.ack1 s)
    (hmerged : y.merged.count s = x.merged.count s) (hsent : y.sent = x.sent)
    (hsignal2 : y.signalled2 s = x.signalled2 s) (hsignal1 : y.signalled1 s = x.signalled1 s) :
    ServerBooks y s where
  reports := by
    rw [hsrv, hmerged, hsignal2]
    exact inv.reports
  measures := by
    rw [hsrv, hack0, hsignal1]
    exact inv.measures
  commits := by
    rw [hsrv]
    exact inv.commits
  tables := by
    rw [hsrv, hack1, hsent]
    exact inv.tables

theorem ServerBooks.of_eq {y : State n nb C} {s : Fin nb} {srv : ServerDh.State n nb C}
    (hsrv : y.srv s = srv) (hreports : srv.reports + y.merged.count s = (y.signalled2 s).toNat)
    (hmeasures : srv.measuring + (y.ack0 s).toNat = (y.signalled1 s).toNat)
    (hcommits : ∀ msg ∈ srv.threads.pending, msg = .commit)
    (htables : srv.threads.pending.length + srv.acking.toNat + (y.ack1 s).toNat =
      y.sent.toNat) : ServerBooks y s := by
  subst hsrv
  exact ⟨hreports, hmeasures, hcommits, htables⟩

theorem Round.congr {x y : State n nb C} (inv : Round x) (hmgr : y.mgr = x.mgr)
    (hmerged : y.merged = x.merged) (hsent : y.sent = x.sent) (hmoving : x.Moving → y.Moving) :
    Round y := by
  cases inv with
  | resting hp hm hs =>
      exact Round.resting (by rwa [hmgr]) (by rwa [hsent, hmerged]) (by rwa [hsent, hmerged])
  | woken hp hmov hs hm =>
      exact Round.woken (by rwa [hmgr]) (hmoving hmov) (by rwa [hsent]) (by rwa [hmerged])
  | collecting nbRcv hp hmov hs hm hle =>
      exact Round.collecting nbRcv (by rwa [hmgr]) (hmoving hmov) (by rwa [hsent])
        (by rwa [hmerged]) hle
  | collected hp hmov hs hm =>
      exact Round.collected (by rwa [hmgr]) (hmoving hmov) (by rwa [hsent]) (by rwa [hmerged])

/-- The script finds what it has found, also after a file is created. -/
theorem Found.mono {x y : State n nb C} (h : Found x) (hpoint : y.point = x.point)
    (hturn : y.turn = x.turn) (hack : ∀ s, x.Acked s → y.Acked s) : Found y := by
  unfold Found at h ⊢
  rw [hpoint, hturn]
  split at h
  · trivial
  · exact h
  · trivial
  · exact h
  · exact fun s hs => hack s (h s hs)
  · exact fun s => hack s (h s)
  · exact fun s => hack s (h s)
  · exact fun s => hack s (h s)

/-- A step at one server. -/
theorem Books.of_server {x y : State n nb C} (inv : Books x) (hserver : ∀ s, ServerBooks y s)
    (hmgr : y.mgr = x.mgr) (hmerged : y.merged = x.merged) (hsent : y.sent = x.sent)
    (hpoint : y.point = x.point) (hturn : y.turn = x.turn) (hack : ∀ s, x.Acked s → y.Acked s)
    (hidle : x.point ≠ .clients → (∀ c, (x.client c).point = .idle) →
      ∀ c, (y.client c).point = .idle) : Books y where
  server := hserver
  round := inv.round.congr hmgr hmerged hsent fun h => ⟨hpoint ▸ h.1, hturn.trans h.2⟩
  sent h := by
    have hmoving := inv.sent (hsent ▸ h)
    exact ⟨hpoint ▸ hmoving.1, hturn.trans hmoving.2⟩
  found := inv.found.mono hpoint hturn hack
  turn := hturn ▸ inv.turn
  idle hp := hidle (hpoint ▸ hp) (inv.idle (hpoint ▸ hp))

section Threads

variable [NeZero nb] [DecidableEq C] {hash : Key → Fin n} {x : State n nb C}
  {y : System.State n nb (EaclData n) C} {l : System.Label nb C}

theorem Books.threads (inv : Books x) (hallowed : allowed x l = true)
    (h : System.Step hash x.view l y)
    (hidle : x.point ≠ .clients → (∀ c, (x.client c).point = .idle) →
      ∀ c, (y.client c).point = .idle) : Books (afterThreads x l y) := by
  have hpending := pending_of_allowed hallowed h fun s => (inv.server s).commits
  rcases afterThreads_cases x l y with ⟨hne, heq⟩ | ⟨s, sender, receiver, hl, htransfer, heq⟩
  · rw [heq]
    refine inv.of_server (fun w => ?_) rfl rfl rfl rfl rfl (fun _ hw => hw) hidle
    have hw := inv.server w
    have hsame : (y.srv w).pending = (x.srv w).threads.pending := by
      rcases hpending w with ⟨⟨sender, receiver, hl, htransfer⟩, _⟩ | ⟨_, hsame⟩
      · exact absurd htransfer (hne w hl sender receiver)
      · exact hsame
    refine ServerBooks.of_eq rfl hw.reports hw.measures ?_ ?_
    · show ∀ msg ∈ (y.srv w).pending, _
      rw [hsame]
      exact hw.commits
    · show (y.srv w).pending.length + _ + _ = _
      rw [hsame]
      exact hw.tables
  · rw [heq]
    refine inv.of_server (fun w => ?_) rfl rfl rfl rfl rfl (fun _ hw => hw) hidle
    have hw := inv.server w
    by_cases hws : w = s
    · subst hws
      have hjoined : (x.srv w).threads.pending = .commit :: (y.srv w).pending := by
        rcases hpending w with ⟨_, hjoined⟩ | ⟨hne, _⟩
        · exact hjoined
        · exact absurd htransfer (hne hl sender receiver)
      have hacking : (x.srv w).acking = false := by
        rw [hl] at hallowed
        simpa [allowed] using hallowed
      have htables := hw.tables
      rw [hjoined, hacking] at htables
      exact ServerBooks.of_eq (Function.update_self _ _ _) hw.reports hw.measures
        (fun msg hmem => hw.commits msg (hjoined ▸ List.mem_cons_of_mem _ hmem)) htables
    · have hsame : (y.srv w).pending = (x.srv w).threads.pending := by
        rcases hpending w with ⟨⟨_, _, hl', _⟩, _⟩ | ⟨_, hsame⟩
        · rw [hl] at hl'
          cases hl'
          exact absurd rfl hws
        · exact hsame
      refine ServerBooks.of_eq (Function.update_of_ne hws _ _) hw.reports hw.measures ?_ ?_
      · show ∀ msg ∈ (y.srv w).pending, _
        rw [hsame]
        exact hw.commits
      · show (y.srv w).pending.length + _ + _ = _
        rw [hsame]
        exact hw.tables

end Threads

/-! ## Servers and files -/

/-- The books of one server change. -/
theorem serverBooks_update {x y : State n nb C} {s : Fin nb} (inv : ∀ w, ServerBooks x w)
    (hs : ServerBooks y s)
    (hne : ∀ w, w ≠ s → y.srv w = x.srv w ∧ y.ack0 w = x.ack0 w ∧ y.ack1 w = x.ack1 w ∧
      y.merged.count w = x.merged.count w ∧ y.signalled2 w = x.signalled2 w ∧
      y.signalled1 w = x.signalled1 w)
    (hsent : y.sent = x.sent) : ∀ w, ServerBooks y w := by
  intro w
  by_cases hw : w = s
  · exact hw ▸ hs
  · obtain ⟨hsrv, hack0, hack1, hmerged, hsignal2, hsignal1⟩ := hne w hw
    exact (inv w).congr hsrv hack0 hack1 hmerged hsent hsignal2 hsignal1

theorem Books.handler {x : State n nb C} (inv : Books x) {s : Fin nb} {i : Nat}
    {srv : ServerDh.State n nb C} (h : ServerDh.HandlerStep (x.srv s) i srv) :
    Books (x.setSrv s srv) := by
  obtain ⟨hmeasuring, hacking, accessList, hthreads⟩ := h.same
  have hs := inv.server s
  have hpending : srv.threads.pending = (x.srv s).threads.pending := by
    rw [hthreads]
    rfl
  refine inv.of_server (serverBooks_update inv.server (s := s) ?_ ?_ rfl) rfl rfl rfl rfl rfl
    (fun _ hw => hw) fun _ h => h
  · refine ServerBooks.of_eq (Function.update_self _ _ _) ?_ ?_ ?_ ?_
    · rw [h.reports]
      exact hs.reports
    · rw [hmeasuring]
      exact hs.measures
    · rw [hpending]
      exact hs.commits
    · rw [hpending, hacking]
      exact hs.tables
  · exact fun w hw => ⟨Function.update_of_ne hw _ _, rfl, rfl, rfl, rfl, rfl⟩

/-- The file after a measure. -/
theorem Books.createAck0 {x : State n nb C} (inv : Books x) {s : Fin nb} {measuring : Nat}
    (hmeasuring : (x.srv s).measuring = measuring + 1) :
    Books
      { x.setSrv s { x.srv s with measuring := measuring } with
        ack0 := Function.update x.ack0 s true } := by
  have hs := inv.server s
  have hle := Bool.toNat_le (x.signalled1 s)
  have hmeasures := hs.measures
  refine inv.of_server (serverBooks_update inv.server (s := s) ?_ ?_ rfl) rfl rfl rfl rfl rfl ?_
    fun _ h => h
  · refine ServerBooks.of_eq (Function.update_self _ _ _) hs.reports ?_ hs.commits hs.tables
    show measuring + (Function.update x.ack0 s true s).toNat = (x.signalled1 s).toNat
    rw [Function.update_self, Bool.toNat_true]
    omega
  · exact fun w hw =>
      ⟨Function.update_of_ne hw _ _, Function.update_of_ne hw _ _, rfl, rfl, rfl, rfl⟩
  · intro w hw
    refine hw.imp_left fun hack => ?_
    by_cases hws : w = s
    · subst hws
      exact Function.update_self _ _ _
    · exact (Function.update_of_ne hws _ _).trans hack

/-- The file after a table. -/
theorem Books.createAck1 {x : State n nb C} (inv : Books x) {s : Fin nb}
    (hacking : (x.srv s).acking = true) :
    Books
      { x.setSrv s { x.srv s with acking := false } with
        ack1 := Function.update x.ack1 s true } := by
  have hs := inv.server s
  have hle := Bool.toNat_le x.sent
  have htables := hs.tables
  rw [hacking, Bool.toNat_true] at htables
  refine inv.of_server (serverBooks_update inv.server (s := s) ?_ ?_ rfl) rfl rfl rfl rfl rfl ?_
    fun _ h => h
  · refine ServerBooks.of_eq (Function.update_self _ _ _) hs.reports hs.measures hs.commits ?_
    show (x.srv s).threads.pending.length + false.toNat +
      (Function.update x.ack1 s true s).toNat = x.sent.toNat
    rw [Function.update_self, Bool.toNat_true, Bool.toNat_false]
    omega
  · exact fun w hw =>
      ⟨Function.update_of_ne hw _ _, rfl, Function.update_of_ne hw _ _, rfl, rfl, rfl⟩
  · intro w hw
    refine hw.imp_right fun hack => ?_
    by_cases hws : w = s
    · subst hws
      exact Function.update_self _ _ _
    · exact (Function.update_of_ne hws _ _).trans hack

/-! ## The manager -/

theorem Books.manager {x : State n nb C} (inv : Books x) {mgr : ManagerDh.State n nb}
    (h : LocalStep x.mgr mgr) (hp : x.mgr.point ≠ .sendMlt) : Books { x with mgr := mgr } where
  server s := (inv.server s).congr rfl rfl rfl rfl rfl rfl rfl
  round := by
    cases h with
    | poll hpoll hneeded =>
        cases inv.round with
        | resting hrest => simp [hpoll, hneeded] at hrest
        | woken _ hmoving hsent hmerged =>
            refine Round.collecting 0 rfl hmoving hsent ?_ (Nat.zero_le nb)
            exact congrArg List.length hmerged
        | collecting nbRcv hcollect => simp [hpoll] at hcollect
        | collected hdone => simp [hpoll] at hdone
    | collected nbRcv hcollect hrcv =>
        cases inv.round with
        | resting hrest => simp [hcollect] at hrest
        | woken hpoll => simp [hcollect] at hpoll
        | collecting nbRcv' hcollect' hmoving hsent hmerged hle =>
            rw [hcollect] at hcollect'
            cases hcollect'
            exact Round.collected (Or.inl rfl) hmoving hsent (hmerged.trans (hle.antisymm hrcv))
        | collected hdone => simp [hcollect] at hdone
    | relabelling hcompute =>
        cases inv.round with
        | resting hrest => simp [hcompute] at hrest
        | woken hpoll => simp [hcompute] at hpoll
        | collecting nbRcv hcollect => simp [hcompute] at hcollect
        | collected _ hmoving hsent hmerged =>
            exact Round.collected (Or.inr rfl) hmoving hsent hmerged
    | sendMlt hsend => exact absurd hsend hp
    | clear hclear =>
        cases inv.round with
        | resting _ hmerged hsent => exact Round.resting (Or.inr ⟨rfl, rfl⟩) hmerged hsent
        | woken hpoll => simp [hclear] at hpoll
        | collecting nbRcv hcollect => simp [hclear] at hcollect
        | collected hdone => simp [hclear] at hdone
  sent := inv.sent
  found := inv.found
  turn := inv.turn
  idle := inv.idle

/-- The table of the step is sent. -/
theorem Books.publish {x : State n nb C} (inv : Books x) (hp : x.mgr.point = .sendMlt)
    (packet : MltPacket n nb) :
    Books { x.publish packet with mgr := { x.mgr with point := .clear } } := by
  obtain ⟨hsent, hmoving, hmerged⟩ := inv.not_sent_of_sendMlt hp
  refine ⟨fun s => ?_, Round.resting (Or.inl rfl) (by simp [State.publish]) fun _ => hmerged,
    fun _ => hmoving, inv.found, inv.turn, inv.idle⟩
  have hs := inv.server s
  obtain ⟨hpending, hacking, hack⟩ := hs.pending_of_not_sent hsent
  have hcommit : ((x.publish packet).srv s).threads.pending = [.commit] := by
    have happend : ((x.publish packet).srv s).threads.pending =
        (x.srv s).threads.pending ++ [.commit] := by
      simp [State.publish, Server.State.pending, Server.kind]
    rw [happend, hpending, List.nil_append]
  constructor
  · exact hs.reports
  · exact hs.measures
  · intro msg hmem
    change msg ∈ ((x.publish packet).srv s).threads.pending at hmem
    rw [hcommit] at hmem
    exact List.mem_singleton.mp hmem
  · change ((x.publish packet).srv s).threads.pending.length + (x.srv s).acking.toNat +
      (x.ack1 s).toNat = true.toNat
    rw [hcommit, hacking, hack]
    rfl

/-- A list of server `s` is merged. -/
theorem Books.managerRecv {x : State n nb C} (inv : Books x) {s : Fin nb} {nbRcv : Nat}
    {sai : Fin n → Nat} {push : List (Fin n → Nat)} (hp : x.mgr.point = .collect nbRcv)
    (hrcv : nbRcv < nb) (hpush : (x.srv s).push = sai :: push) :
    Books
      { x.setSrv s { x.srv s with push := push } with
        mgr :=
          { x.mgr with
            globalList := managerMergeEacl x.mgr.globalList sai
            point := .collect (nbRcv + 1) }
        merged := x.merged ++ [s] } := by
  cases inv.round with
  | resting hrest => simp [hp] at hrest
  | woken hpoll => simp [hp] at hpoll
  | collected hdone => simp [hp] at hdone
  | collecting nbRcv' hp' hmoving hsent hmerged hle =>
      rw [hp] at hp'
      cases hp'
      refine ⟨serverBooks_update inv.server (s := s) ?_ ?_ rfl, ?_, fun _ => hmoving, inv.found,
        inv.turn, inv.idle⟩
      · have hs := inv.server s
        refine ServerBooks.of_eq (Function.update_self _ _ _) ?_ hs.measures hs.commits hs.tables
        have hreports := hs.reports
        rw [ServerDh.State.reports, hpush] at hreports
        show push.length + (x.srv s).handlers.countP ServerDh.reporting +
          (x.merged ++ [s]).count s = (x.signalled2 s).toNat
        rw [List.count_append, List.count_singleton_self, ← hreports, List.length_cons]
        omega
      · intro w hw
        refine ⟨Function.update_of_ne hw _ _, rfl, rfl, ?_, rfl, rfl⟩
        show (x.merged ++ [s]).count w = x.merged.count w
        rw [List.count_append, List.count_singleton, if_neg (by simpa using Ne.symm hw),
          Nat.add_zero]
      · refine Round.collecting (nbRcv + 1) rfl hmoving hsent ?_ hrcv
        exact List.length_append.trans (congrArg (· + 1) hmerged)

/-! ## The script -/

/-- The script goes on while it does not wait for a table. -/
theorem Books.setPoint {x y : State n nb C} (inv : Books x) (hmoving : ¬ x.Moving)
    (hserver : ∀ s, ServerBooks y s) (hmgr : y.mgr = x.mgr) (hmerged : y.merged = x.merged)
    (hsent : y.sent = x.sent) (hfound : Found y) (hturn : 0 < y.turn)
    (hidle : y.point ≠ .clients → ∀ c, (y.client c).point = .idle) : Books y where
  server := hserver
  round := inv.round.congr hmgr hmerged hsent fun h => absurd h hmoving
  sent h := absurd (inv.sent (hsent ▸ h)) hmoving
  found := hfound
  turn := hturn
  idle := hidle

/-- `SIGUSR2` is sent to a server. -/
theorem Books.kill2 {x : State n nb C} (inv : Books x) {s : Fin nb} {left : List (Fin nb)}
    (hp : x.point = .signal2 left) (hs : s ∈ left) :
    Books
      { x.setSrv s (ServerDh.usr2Handler (x.srv s)) with point := .signal2 (left.erase s) } := by
  have hmoving : ¬ x.Moving := by simp [State.Moving, hp, Point.waits]
  have hnodup : left.Nodup := by
    have hfound := inv.found
    rwa [Found, hp] at hfound
  have hsrv := inv.server s
  refine inv.setPoint hmoving (serverBooks_update inv.server (s := s) ?_ ?_ rfl) rfl rfl rfl
    (hnodup.erase s) inv.turn fun _ => inv.idle (by simp [hp])
  · refine ServerBooks.of_eq (Function.update_self _ _ _) ?_ ?_ hsrv.commits hsrv.tables
    · have hreports := hsrv.reports
      simp only [State.signalled2, hp, List.contains_iff_mem.mpr hs, Bool.not_true,
        Bool.toNat_false] at hreports
      rw [ServerDh.reports_usr2Handler, State.signalled2]
      simp only [List.contains_eq_mem, hnodup.not_mem_erase, decide_false, Bool.not_false,
        Bool.toNat_true]
      show (x.srv s).reports + 1 + x.merged.count s = 1
      omega
    · have hmeasures := hsrv.measures
      rw [show x.signalled1 s = false by simp [State.signalled1, hp, Point.waits]] at hmeasures
      exact hmeasures
  · intro w hw
    refine ⟨Function.update_of_ne hw _ _, rfl, rfl, rfl, ?_, ?_⟩
    · simp [State.signalled2, hp, List.mem_erase_of_ne hw]
    · simp [State.signalled1, hp, Point.waits]

/-- `SIGUSR1` is sent to a server. -/
theorem Books.kill1 {x : State n nb C} (inv : Books x) {s : Fin nb} {left : List (Fin nb)}
    (hp : x.point = .signal1 left) (hs : s ∈ left) :
    Books
      { x.setSrv s (ServerDh.usr1Handler (x.srv s)) with point := .signal1 (left.erase s) } := by
  have hmoving : ¬ x.Moving := by simp [State.Moving, hp, Point.waits]
  obtain ⟨hnodup, hturn⟩ : left.Nodup ∧ x.turn ≠ 1 := by
    have hfound := inv.found
    rwa [Found, hp] at hfound
  have hsrv := inv.server s
  refine inv.setPoint hmoving (serverBooks_update inv.server (s := s) ?_ ?_ rfl) rfl rfl rfl
    ⟨hnodup.erase s, hturn⟩ inv.turn fun _ => inv.idle (by simp [hp])
  · refine ServerBooks.of_eq (Function.update_self _ _ _) ?_ ?_ hsrv.commits hsrv.tables
    · have hreports := hsrv.reports
      rw [show x.signalled2 s = false by simp [State.signalled2, hp, Point.waits]] at hreports
      exact hreports
    · have hmeasures := hsrv.measures
      simp only [State.signalled1, hp, List.contains_iff_mem.mpr hs, Bool.not_true,
        Bool.toNat_false] at hmeasures
      simp only [State.signalled1, List.contains_eq_mem, hnodup.not_mem_erase, decide_false,
        Bool.not_false, Bool.toNat_true]
      show (x.srv s).measuring + 1 + (x.ack0 s).toNat = 1
      omega
  · intro w hw
    refine ⟨Function.update_of_ne hw _ _, rfl, rfl, rfl, ?_, ?_⟩
    · simp [State.signalled2, hp, Point.waits]
    · simp [State.signalled1, hp, List.mem_erase_of_ne hw]

/-- What the files of the script are for: when it removes them, nothing of the step is left. -/
theorem Books.over [NeZero nb] {x : State n nb C} (inv : Books x) (hp : x.point = .remove) :
    ((x.mgr.point = .clear ∨ x.mgr.point = .poll ∧ x.mgr.updateNeeded = false) ∧
      x.merged.length = if x.turn = 1 then nb else 0) ∧
      ∀ s, (x.srv s).reports = 0 ∧ (x.srv s).measuring = 0 ∧ (x.srv s).threads.pending = [] ∧
        (x.srv s).acking = false := by
  have hacked : ∀ s, x.Acked s := by
    have hfound := inv.found
    rwa [Found, hp] at hfound
  by_cases hturn : x.turn = 1
  · have hsignal1 : ∀ s, x.signalled1 s = false := fun s => by
      simp [State.signalled1, hp, Point.waits, hturn]
    have hsignal2 : ∀ s, x.signalled2 s = true := fun s => by
      simp [State.signalled2, hp, Point.waits, hturn]
    have hack1 : ∀ s, x.ack1 s = true := fun s => by
      refine (hacked s).resolve_left fun hack0 => ?_
      have hmeasures := (inv.server s).measures
      rw [hack0, hsignal1 s] at hmeasures
      cases hmeasures
    have hsent : x.sent = true := by
      have htables := (inv.server 0).tables
      rw [hack1 0] at htables
      by_contra hne
      rw [Bool.eq_false_of_not_eq_true hne] at htables
      cases htables
    have hround : (x.mgr.point = .clear ∨ x.mgr.point = .poll ∧ x.mgr.updateNeeded = false) ∧
        x.merged.length = nb := by
      cases inv.round with
      | resting hrest _ hmerged => exact ⟨hrest, hmerged hsent⟩
      | woken _ _ hsent' => simp [hsent] at hsent'
      | collecting _ _ _ hsent' => simp [hsent] at hsent'
      | collected _ _ hsent' => simp [hsent] at hsent'
    refine ⟨by rwa [if_pos hturn], fun s => ?_⟩
    have hcount : x.merged.count s = 1 := by
      rw [(inv.merged_perm hround.2).count_eq]
      exact List.count_eq_one_of_mem (List.nodup_finRange nb) (List.mem_finRange s)
    have hs := inv.server s
    have hreports := hs.reports
    have hmeasures := hs.measures
    have htables := hs.tables
    rw [hcount, hsignal2 s] at hreports
    rw [hsignal1 s] at hmeasures
    rw [hack1 s, hsent] at htables
    refine ⟨?_, (Nat.add_eq_zero_iff.mp hmeasures).1, ?_⟩
    · exact Nat.succ.inj hreports
    · simpa using htables
  · have hmoving : ¬ x.Moving := fun h => hturn h.2
    have hrest := inv.resting hmoving
    have hsent : x.sent = false := by
      by_contra hne
      exact hmoving (inv.sent (Bool.eq_true_of_not_eq_false hne))
    refine ⟨⟨hrest.1, by rw [hrest.2, if_neg hturn]; rfl⟩, fun s => ?_⟩
    have hs := inv.server s
    obtain ⟨hpending, hacking, hack1⟩ := hs.pending_of_not_sent hsent
    have hack0 : x.ack0 s = true := (hacked s).resolve_right (by simp [hack1])
    have hreports := hs.reports
    have hmeasures := hs.measures
    rw [show x.signalled2 s = false by simp [State.signalled2, hp, Point.waits, hturn]]
      at hreports
    rw [show x.signalled1 s = true by simp [State.signalled1, hp, Point.waits, hturn], hack0]
      at hmeasures
    exact ⟨(Nat.add_eq_zero_iff.mp hreports).1, Nat.succ.inj hmeasures, hpending, hacking⟩

theorem Books.remove [NeZero nb] {x : State n nb C} (inv : Books x) (hp : x.point = .remove) :
    Books
      { x with
        ack0 := fun _ => false
        ack1 := fun _ => false
        point := .clients
        merged := []
        sent := false } where
  server s := by
    obtain ⟨_, hsrv⟩ := inv.over hp
    obtain ⟨hreports, hmeasuring, hpending, hacking⟩ := hsrv s
    refine ServerBooks.of_eq rfl hreports hmeasuring ?_ ?_
    · rw [hpending]
      simp
    · rw [hpending, hacking]
      rfl
  round := Round.resting (inv.over hp).1.1 (fun _ => rfl) (by simp)
  sent := by simp
  found := trivial
  turn := inv.turn
  idle hne := absurd rfl hne

theorem signalled_of_waits {x : State n nb C} (h : x.point.waits = true) (s : Fin nb) :
    x.signalled2 s = (x.turn == 1) ∧ x.signalled1 s = (x.turn != 1) := by
  unfold State.signalled2 State.signalled1
  cases hp : x.point with
  | clients | signal2 | signalManager | signal1 => simp [hp, Point.waits] at h
  | wait | search | wait1 | remove => exact ⟨Bool.true_and _, Bool.true_and _⟩

/-- The script waits for the next file. -/
theorem Books.wait {x : State n nb C} (inv : Books x) {p : Point nb}
    (hp : x.point.waits = true) (hwaits : p.waits = true)
    (hfound : Found { x with point := p }) : Books { x with point := p } where
  server s := by
    obtain ⟨hsignal2, hsignal1⟩ := signalled_of_waits hp s
    obtain ⟨hsignal2', hsignal1'⟩ :=
      signalled_of_waits (show ({ x with point := p } : State n nb C).point.waits = true from
        hwaits) s
    exact (inv.server s).congr rfl rfl rfl rfl rfl (hsignal2'.trans hsignal2.symm)
      (hsignal1'.trans hsignal1.symm)
  round := inv.round.congr rfl rfl rfl fun h => ⟨hwaits, h.2⟩
  sent h := ⟨hwaits, (inv.sent h).2⟩
  found := hfound
  turn := inv.turn
  idle _ := inv.idle fun hclients => by
    rw [hclients] at hp
    cases hp

/-- `SIGUSR2` is sent to the manager. -/
theorem Books.signalManager {x : State n nb C} (inv : Books x) (hp : x.point = .signalManager) :
    Books
      { x with
        mgr := usrHandler2 x.mgr
        turn := 1
        point := .wait 0 } := by
  have hmoving : ¬ x.Moving := by simp [State.Moving, hp, Point.waits]
  obtain ⟨hrest, hmerged⟩ := inv.resting hmoving
  have hsent : x.sent = false := inv.not_sent (by simp [hp, Point.waits])
  refine ⟨fun s => ?_, ?_, fun _ => ⟨rfl, rfl⟩, fun s hs => absurd hs (Nat.not_lt_zero _),
    Nat.one_pos, fun _ => inv.idle (by simp [hp])⟩
  · refine (inv.server s).congr rfl rfl rfl rfl rfl ?_ ?_
    · simp [State.signalled2, hp, Point.waits]
    · simp [State.signalled1, hp, Point.waits]
  · rcases hrest with hclear | ⟨hpoll, _⟩
    · exact Round.resting (Or.inl hclear) (fun _ => hmerged)
        fun h => absurd (hsent.symm.trans h) Bool.false_ne_true
    · exact Round.woken hpoll ⟨rfl, rfl⟩ hsent hmerged

section Step

variable [NeZero nb] [DecidableEq C] {hash : Key → Fin n} {x : State n nb C}

/-- While the script does not run clients, none begins a request. -/
theorem idle_of_allowed {y : System.State n nb (EaclData n) C} {l : System.Label nb C}
    (serving : Serving x.view.works x.view.Served) (hallowed : allowed x l = true)
    (h : System.Step hash x.view l y) (hp : x.point ≠ .clients)
    (hidle : ∀ c, (x.client c).point = .idle) (d : C) : (y.client d).point = .idle := by
  have hview : ∀ c, (x.view.client c).point = .idle := hidle
  cases h with
  | accept s c request hc | refuse s c request reply hc =>
      rw [hview c] at hc
      cases hc
  | answer s c request done getValue hmain =>
      have hnone := System.main_client_eq_none serving hidle s
      rw [hmain] at hnone
      cases hnone
  | clientSend c key reqType hc => simp [allowed, hp] at hallowed
  | clientRecv c reply hc =>
      rw [hview c] at hc
      cases hc
  | server | takePacket | replyPacket => exact hidle d
  | _ => cases hallowed

omit [NeZero nb] [DecidableEq C] in
theorem point_of_idle {client : Client.State n nb} (h : idle client = true) :
    client.point = .idle := by
  unfold idle at h
  split at h
  · assumption
  · cases h

variable {distrib : Nat} {y : State n nb C} {l : Label nb C}

/-- The books are kept by every step. -/
theorem Books.step (inv : Books x) (serving : Serving x.view.works x.view.Served)
    (h : Step hash distrib x l y) : Books y := by
  have hclients : x.point = .clients → ¬ x.Moving := fun hp => by
    simp [State.Moving, hp, Point.waits]
  cases h with
  | threads l y hallowed h =>
      exact inv.threads hallowed h (idle_of_allowed serving hallowed h)
  | startClient c hp hc =>
      refine inv.of_server (fun s => (inv.server s).congr rfl rfl rfl rfl rfl rfl rfl) rfl rfl rfl
        rfl rfl (fun _ hw => hw) fun _ hidle d => ?_
      by_cases hd : d = c
      · subst hd
        exact congrArg Client.State.point (Function.update_self d _ x.client)
      · exact (congrArg Client.State.point (Function.update_of_ne hd _ x.client)).trans (hidle d)
  | kill2 s left hp hs => exact inv.kill2 hp hs
  | kill1 s left hp hs => exact inv.kill1 hp hs
  | handler s i srv h => exact inv.handler h
  | createAck0 s measuring hs => exact inv.createAck0 hs
  | createAck1 s hs => exact inv.createAck1 hs
  | manager mgr h hp => exact inv.manager h hp
  | publish hp => exact inv.publish hp _
  | managerRecv s nbRcv sai push hp hrcv hpush => exact inv.managerRecv hp hrcv hpush
  | rebalance hp hidle hturn =>
      refine inv.setPoint (hclients hp) (fun s => ?_) rfl rfl rfl (List.nodup_finRange nb) inv.turn
        fun _ c => point_of_idle (hidle c)
      refine (inv.server s).congr rfl rfl rfl rfl rfl ?_ ?_
      · simp [State.signalled2, hp, Point.waits]
      · simp [State.signalled1, hp, Point.waits]
  | measure hp hidle =>
      refine inv.setPoint (hclients hp) (fun s => ?_) rfl rfl rfl
        ⟨List.nodup_finRange nb, Nat.succ_ne_succ_iff.mpr inv.turn.ne'⟩ (Nat.succ_pos _)
        fun _ c => point_of_idle (hidle c)
      refine (inv.server s).congr rfl rfl rfl rfl rfl ?_ ?_
      · simp [State.signalled2, hp, Point.waits]
      · simp [State.signalled1, hp, Point.waits]
  | signalled2 hp =>
      refine inv.setPoint (by simp [State.Moving, hp, Point.waits]) (fun s => ?_) rfl rfl rfl
        trivial inv.turn fun _ => inv.idle (by simp [hp])
      refine (inv.server s).congr rfl rfl rfl rfl rfl ?_ ?_
      · simp [State.signalled2, hp]
      · simp [State.signalled1, hp, Point.waits]
  | signalManager hp => exact inv.signalManager hp
  | signalled1 hp =>
      have hturn : x.turn ≠ 1 := by
        have hfound := inv.found
        rw [Found, hp] at hfound
        exact hfound.2
      refine inv.setPoint (by simp [State.Moving, hp, Point.waits]) (fun s => ?_) rfl rfl rfl
        (fun s hs => absurd hs (Nat.not_lt_zero _)) inv.turn fun _ => inv.idle (by simp [hp])
      refine (inv.server s).congr rfl rfl rfl rfl rfl ?_ ?_
      · simp [State.signalled2, hp, Point.waits, hturn]
      · simp [State.signalled1, hp, Point.waits, hturn]
  | found i hi hp hack =>
      have hfound := inv.found
      rw [Found, hp] at hfound
      exact inv.wait (by rw [hp]; rfl) rfl (Launch.forall_lt_succ hfound hack)
  | foundAll i hi hp =>
      have hfound := inv.found
      rw [Found, hp] at hfound
      exact inv.wait (by rw [hp]; rfl) rfl fun s => hfound s (s.isLt.trans_le hi)
  | searchFound hp | searchNone hp =>
      have hfound := inv.found
      rw [Found, hp] at hfound
      exact inv.wait (by rw [hp]; rfl) rfl hfound
  | found1 i hi hp | found1All i hi hp =>
      have hfound := inv.found
      rw [Found, hp] at hfound
      exact inv.wait (by rw [hp]; rfl) rfl hfound
  | remove hp => exact inv.remove hp

end Step

end MeDiE.LaunchDh
