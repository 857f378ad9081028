import MeDiE.System.Replicas
import MeDiE.System.Versions

/-!
# The versions fit their type

`n_ver` is an array of `uint32_t` and `version + 1` is computed as an `int`, so a version
could come round.  It does not get that far.  The manager sends at most one table for each
`SIGUSR2`, since `epoch_processed` is cleared by `usrHandler2` only, and a table raises a
version by one at most.  So no version is larger than the manager's `epoch`, which is an
`int` and has no value after its largest one.

`step32` is the step of the system with this arithmetic.  Its runs are runs of `step`.
-/

namespace MeDiE.Server

variable {n nb : Nat} {A C : Type} [Eacl A n]

/-- A handler that has started has raised the epoch, and a `HELP` says so. -/
structure Signalled (srv : State n nb A C) : Prop where
  help : ∀ h, .help h ∈ srv.push → 0 < h
  epoch : srv.handlers ≠ [] → 0 < srv.epoch

omit [Eacl A n] in
theorem Signalled.congr {srv srv' : State n nb A C} (inv : Signalled srv)
    (hpush : ∀ h, .help h ∈ srv'.push → .help h ∈ srv.push)
    (hhandlers : srv'.handlers ≠ [] → srv.handlers ≠ []) (hepoch : srv'.epoch = srv.epoch) :
    Signalled srv' :=
  ⟨fun h hmem => inv.help h (hpush h hmem), fun hne => hepoch ▸ inv.epoch (hhandlers hne)⟩

omit [Eacl A n] in
theorem ne_nil_of_getElem? {handlers : List (Handler n)} {i : Nat} {h : Handler n}
    (hi : handlers[i]? = some h) : handlers ≠ [] := by
  rintro rfl
  cases hi

theorem Step.signalled {s : Fin nb} {srv srv' : State n nb A C} {l : Label}
    (inv : Signalled srv) (h : Step s srv l srv') : Signalled srv' := by
  cases h with
  | usr2 => exact ⟨inv.help, fun _ => Nat.succ_pos srv.epoch⟩
  | calculateSai i h h' accessList hi =>
      exact inv.congr (fun _ => id) (fun _ => ne_nil_of_getElem? hi) rfl
  | setEaclEpoch i hi | resetAccess i hi | threshold i hi | noRebalancing i max min hi =>
      exact inv.congr (fun _ => id) (fun _ => ne_nil_of_getElem? hi) rfl
  | askRebalancing i max min hi hload =>
      constructor
      · intro h hmem
        rcases List.mem_append.mp hmem with hmem | hmem
        · exact inv.help h hmem
        · cases List.mem_singleton.mp hmem
          exact inv.epoch (ne_nil_of_getElem? hi)
      · exact fun _ => inv.epoch (ne_nil_of_getElem? hi)
  | sendEacl sai hl => exact inv.congr (fun h hmem => by simpa using hmem) id rfl
  | _ => exact inv.congr (fun _ => id) id rfl

omit [Eacl A n] in
theorem Signalled.external {srv srv' : State n nb A C} (inv : Signalled srv)
    (h : System.External srv srv') : Signalled srv' := by
  cases h with
  | push packet push hpush =>
      exact inv.congr (fun h hmem => hpush ▸ List.mem_cons_of_mem _ hmem) id rfl
  | _ => exact inv.congr (fun _ => id) id rfl

end MeDiE.Server

namespace MeDiE.System

open MeDiE.Server
open MeDiE.Storage
open MeDiE.Table
open MeDiE.Verified
open MeDiE.Verified.Transition

variable {n nb : Nat} {A C : Type}

/-! ## As many tables as signals -/

/-- The manager has found `epoch_processed` to be 0 and has not sent the table. -/
def opened : Manager.Point → Bool
  | .newAsk => true
  | .sendAsk _ => true
  | .collect _ => true
  | .relabelling => true
  | .sendMlt => true
  | _ => false

/-- The number of tables sent is no larger than the epoch, and is below it when another
one may be sent. -/
structure Paced (mgr : Manager.State n nb) (sent : Nat) : Prop where
  help : ∀ h, mgr.point = .checkEpoch h ∨ mgr.point = .waitEpoch h → 0 < h
  checked : ∀ h, mgr.point = .checkProcessed h → 0 < mgr.epoch
  le : sent ≤ mgr.epoch
  again : mgr.epochProcessed = false → mgr.point ≠ .setProcessed →
    sent < mgr.epoch ∨ mgr.epoch = 0
  lt : opened mgr.point = true → sent < mgr.epoch

theorem paced_init [NeZero nb] : Paced (Manager.State.init n nb) 0 where
  help := fun h hp => by rcases hp with hp | hp <;> cases hp
  checked := fun h hp => by cases hp
  le := Nat.le_refl 0
  again := fun _ _ => Or.inr rfl
  lt := fun h => by cases h

theorem Paced.usrHandler2 {mgr : Manager.State n nb} {sent : Nat} (inv : Paced mgr sent) :
    Paced (Manager.usrHandler2 mgr) sent where
  help := inv.help
  checked := fun _ _ => Nat.succ_pos mgr.epoch
  le := Nat.le_succ_of_le inv.le
  again := fun _ _ => Or.inl (Nat.lt_succ_of_le inv.le)
  lt := fun _ => Nat.lt_succ_of_le inv.le

/-- The manager goes to a point at which it is not known to be allowed to send a table. -/
theorem Paced.rest {mgr mgr' : Manager.State n nb} {sent : Nat} (inv : Paced mgr sent)
    (hepoch : mgr'.epoch = mgr.epoch) (hprocessed : mgr'.epochProcessed = mgr.epochProcessed)
    (hp : mgr.point ≠ .setProcessed) (hopened : opened mgr'.point = false)
    (hhelp : ∀ h, mgr'.point = .checkEpoch h ∨ mgr'.point = .waitEpoch h → 0 < h)
    (hchecked : ∀ h, mgr'.point = .checkProcessed h → 0 < mgr.epoch) :
    Paced mgr' sent where
  help := hhelp
  checked := hepoch ▸ hchecked
  le := hepoch ▸ inv.le
  again := fun h _ => hepoch ▸ inv.again (hprocessed ▸ h) hp
  lt := fun h => by
    rw [hopened] at h
    cases h

/-- The manager is on the way to sending a table. -/
theorem Paced.goOn {mgr mgr' : Manager.State n nb} {sent : Nat} (inv : Paced mgr sent)
    (hepoch : mgr'.epoch = mgr.epoch) (hlt : sent < mgr.epoch)
    (hopened : opened mgr'.point = true) : Paced mgr' sent where
  help := fun h hp => by rcases hp with hp | hp <;> simp [hp, opened] at hopened
  checked := fun h hp => by simp [hp, opened] at hopened
  le := hepoch ▸ inv.le
  again := fun _ _ => Or.inl (hepoch ▸ hlt)
  lt := fun _ => hepoch ▸ hlt

theorem Paced.localStep {mgr mgr' : Manager.State n nb} {sent : Nat}
    (inv : Paced mgr sent) (h : Manager.LocalStep mgr mgr') : Paced mgr' sent := by
  cases h with
  | oldHelp h hp hepoch =>
      exact inv.rest rfl rfl (by simp [hp]) rfl (by simp) (by simp)
  | newHelp h hp hepoch =>
      refine inv.rest rfl rfl (by simp [hp]) rfl (fun k hk => ?_) (by simp)
      obtain rfl : h = k := by simpa using hk
      exact inv.help h (Or.inl hp)
  | epochReached h hp hepoch =>
      refine inv.rest rfl rfl (by simp [hp]) rfl (by simp) fun _ _ => ?_
      exact Nat.lt_of_lt_of_le (inv.help h (Or.inr hp)) hepoch
  | processed h hp hprocessed =>
      exact inv.rest rfl rfl (by simp [hp]) rfl (by simp) (by simp)
  | notProcessed h hp hprocessed =>
      have hpos := inv.checked h hp
      refine inv.goOn rfl ?_ rfl
      rcases inv.again hprocessed (by simp [hp]) with hlt | hzero
      · exact hlt
      · omega
  | newAsk hp => exact inv.goOn rfl (inv.lt (by simp [hp, opened])) rfl
  | collected nbRcv hp hall => exact inv.goOn rfl (inv.lt (by simp [hp, opened])) rfl
  | relabelling hp => exact inv.goOn rfl (inv.lt (by simp [hp, opened])) rfl
  | setProcessed hp =>
      refine ⟨by simp, by simp, inv.le, fun h _ => ?_, fun h => ?_⟩
      · cases h
      · cases h

/-- The manager sends a table. -/
theorem Paced.sendMlt {mgr : Manager.State n nb} {sent : Nat} (inv : Paced mgr sent)
    (hp : mgr.point = .sendMlt) :
    Paced { mgr with point := .setProcessed } (sent + 1) where
  help := by simp
  checked := by simp
  le := inv.lt (by simp [hp, opened])
  again := fun _ hne => absurd rfl hne
  lt := fun h => by cases h

variable [NeZero nb] [Eacl A n] [DecidableEq C] {hash : Key → Fin n}

omit [NeZero nb] in
theorem signalled_step {x y : State n nb A C} {l : Label nb C}
    (inv : ∀ s, Signalled (x.srv s)) (h : Step hash x l y) : ∀ s, Signalled (y.srv s) := by
  have hsub : ∀ packet : FromManager n nb, ∀ s,
      Signalled { x.srv s with sub := (x.srv s).sub ++ [packet] } := fun packet s =>
    (inv s).congr (fun _ => id) id rfl
  have h' := h
  cases h with
  | sendAsk epoch hp => exact hsub _
  | sendMlt hp => exact hsub _
  | _ =>
      apply h'.servers_of_ne (P := fun _ srv => Signalled srv) (by simp) inv
      · exact fun s l' srv _ hs => hs.signalled (inv s)
      · exact fun s srv srv' hext hs => hs.external hext

theorem paced_of_reachable {x : State n nb A C} (hx : Reachable hash x) :
    (∀ s, Signalled (x.srv s)) ∧ Paced x.mgr x.log.mlts.length := by
  refine hx.invariant
    (I := fun x => (∀ s, Signalled (x.srv s)) ∧ Paced x.mgr x.log.mlts.length) ?_ ?_
  · refine ⟨fun s => ⟨fun h hmem => ?_, fun hne => absurd rfl hne⟩, paced_init⟩
    cases hmem
  · rintro x y l _ ⟨hsrv, inv⟩ h
    refine ⟨signalled_step hsrv h, ?_⟩
    have h' := h
    cases h with
    | usrHandler2 => exact inv.usrHandler2
    | manager mgr h => exact inv.localStep h
    | recvHelp s epoch push hp hpush =>
        refine inv.rest rfl rfl (by simp [hp]) rfl (fun k hk => ?_) (by simp)
        obtain rfl : epoch = k := by simpa using hk
        exact (hsrv s).help epoch (by rw [hpush]; exact List.mem_cons_self)
    | recvEacl s id sai loadLvl nbRcv push hp hrcv hpush =>
        exact inv.goOn rfl (inv.lt (by simp [hp, opened])) rfl
    | sendAsk epoch hp => exact inv.goOn rfl (inv.lt (by simp [hp, opened])) rfl
    | sendMlt hp =>
        have hlength : (x.log.mlts ++ [mltPacket x.mgr]).length = x.log.mlts.length + 1 :=
          List.length_append
        exact hlength ▸ inv.sendMlt hp
    | discardEacl | discardHelp | server | takePacket | replyPacket => exact inv
    | _ =>
        have hsame := h'.sameRounds rfl
        rw [hsame.mgr, hsame.mlts]
        exact inv

/-! ## Versions and epochs -/

omit [Eacl A n] [DecidableEq C] in
/-- A table that was sent out has no version above the number of tables. -/
theorem nVer_le_length {mgr : Manager.State n nb} {mlts : List (MltPacket n nb)}
    (inv : HistoryInv mgr mlts) {m : MltPacket n nb} (hm : m ∈ initPacket n nb :: mlts)
    (e : Fin n) : m.nVer e ≤ mlts.length := by
  have hle := Versions.version_le inv.chain hm e
  have hzero : (initPacket n nb).nVer e = 0 := rfl
  rwa [hzero, Nat.zero_add] at hle

/-- No version is larger than the epoch of the manager. -/
theorem nVer_le_epoch {x : State n nb A C} (hx : Reachable hash x)
    {table : Mlt n (Fin nb)} (h : Holds x table) (e : Fin n) : table.nVer e ≤ x.mgr.epoch := by
  have hhistory := historyInv_of_reachable hx
  have hissued := issuedInv_of_reachable hx
  have paced := (paced_of_reachable hx).2
  have hsent : ∀ ver srv, Issued x.log.mlts e ver srv → ver ≤ x.mgr.epoch := by
    rintro ver srv ⟨m, hm, rfl, _⟩
    exact (nVer_le_length hhistory hm e).trans paced.le
  cases h with
  | server s => exact hsent _ _ (hissued.server s e)
  | client c => exact hsent _ _ (hissued.client c e)
  | manager =>
      by_cases hp : x.mgr.point = .sendMlt
      · have hnew := nVer_le_length (hhistory.sendMlt x.mgr.point)
          (m := mltPacket x.mgr) (by simp) e
        have hlt := paced.lt (by simp [hp, opened])
        rw [List.length_append, List.length_singleton] at hnew
        exact hnew.trans hlt
      · rw [← (hhistory.rest hp).2]
        exact hsent _ _ ⟨_, List.getLast_mem _, rfl, rfl⟩

/-! ## The arithmetic of the program -/

omit [NeZero nb] [Eacl A n] [DecidableEq C] in
/-- `epoch++` has a result.  `epoch` is a `sig_atomic_t`, which is an `int`. -/
def EpochFits (l : Label nb C) (x : State n nb A C) : Prop :=
  match l with
  | .usrHandler2 => x.mgr.epoch + 1 < 2 ^ 31
  | .server s .usr2 => (x.srv s).epoch + 1 < 2 ^ 31
  | _ => True

instance (l : Label nb C) (x : State n nb A C) : Decidable (EpochFits l x) :=
  match l with
  | .usrHandler2 => inferInstanceAs (Decidable (x.mgr.epoch + 1 < 2 ^ 31))
  | .server s .usr2 => inferInstanceAs (Decidable ((x.srv s).epoch + 1 < 2 ^ 31))
  | .server _ (.handler _) | .server _ .listener | .server _ .sender | .server _ .receiver
  | .server _ .main | .manager | .managerRecv _ | .managerSend | .takePacket _ _
  | .replyPacket _ | .mainRecv _ _ | .mainReply _ | .clientSend _ _ _ | .clientRecv _ =>
      isTrue trivial

/-- What the manager has computed is put into the array `n_ver` of `uint32_t`. -/
def State.wrap (x : State n nb A C) : State n nb A C :=
  x.setMgr { x.mgr with table := x.mgr.table.wrap }

/-- `step` with versions that wrap, and epochs that do not go beyond an `int`. -/
def step32 (hash : Key → Fin n) (l : Label nb C) (x : State n nb A C) :
    Option (State n nb A C) :=
  if EpochFits l x then (step hash l x).map State.wrap else none

omit [NeZero nb] in
/-- The epoch of the manager stays in its type. -/
theorem epoch_lt_step {x y : State n nb A C} {l : Label nb C} (h : Step hash x l y)
    (hfits : EpochFits l x) (hlt : x.mgr.epoch < 2 ^ 31) : y.mgr.epoch < 2 ^ 31 := by
  have h' := h
  cases h with
  | usrHandler2 => exact hfits
  | manager mgr h => cases h <;> exact hlt
  | recvHelp | recvEacl | sendAsk | sendMlt | discardEacl | discardHelp | server | takePacket
  | replyPacket => exact hlt
  | _ =>
      rw [(h'.sameRounds rfl).mgr]
      exact hlt

/-- Nothing wraps. -/
theorem reachable_of_step32 {x : State n nb A C}
    (hx : Reach (init n nb A C) (Steps (step32 hash)) x) :
    Reachable hash x ∧ x.mgr.epoch < 2 ^ 31 := by
  induction hx with
  | start => exact ⟨Reach.start, Nat.two_pow_pos 31⟩
  | @next x y _ hxy ih =>
      obtain ⟨hreach, hlt⟩ := ih
      obtain ⟨l, hl⟩ := hxy
      obtain ⟨hfits, hstep⟩ := Option.ite_none_right_eq_some.mp hl
      obtain ⟨z, hz, rfl⟩ := Option.map_eq_some_iff.mp hstep
      have hzreach : Reachable hash z := hreach.next ⟨l, hz⟩
      have hepoch := epoch_lt_step (step_cases hz) hfits hlt
      have hwrap : z.wrap = z := by
        rw [State.wrap, Mlt.wrap_eq_self]
        · rfl
        · intro e
          exact (nVer_le_epoch hzreach Holds.manager e).trans_lt (hepoch.trans (by decide))
      rw [hwrap]
      exact ⟨hzreach, hepoch⟩

/-- **A version identifies the owner.**  In every state that the system reaches, with
versions kept as `uint32_t`: all versions are below `2 ^ 31`; tables of the manager, the
servers and the clients that hold the same version of an entry hold the same owner for it;
and a server accepts a routed request only at a version at which it is the owner. -/
theorem version_identifies_owner (hash : Key → Fin n) (x : State n nb A C)
    (hx : Reach (init n nb A C) (Steps (step32 hash)) x) :
    (∀ table, Holds x table → ∀ e, table.nVer e < 2 ^ 31) ∧
    (∀ table table', Holds x table → Holds x table' →
      ∀ e, table.nVer e = table'.nVer e → table.idSrv e = table'.idSrv e) ∧
    (∀ s c request, (x.client c).point = .sent s request →
      Server.distributionPostReceive (x.srv s).table request = .accepted →
      (x.srv s).table.nVer request.index = request.entryVersion ∧
        (x.srv s).table.idSrv request.index = s) := by
  obtain ⟨hreach, hlt⟩ := reachable_of_step32 hx
  have howner := owner_of_version hreach
  exact ⟨fun table h e => (nVer_le_epoch hreach h e).trans_lt hlt, howner.1, howner.2⟩

section Sample

/-- The client of the sample runs, as the first of two. -/
def ofFirst : System.Label 2 Unit → System.Label 2 Bool
  | .usrHandler2 => .usrHandler2
  | .manager => .manager
  | .managerRecv s => .managerRecv s
  | .managerSend => .managerSend
  | .server s l => .server s l
  | .takePacket w s => .takePacket w s
  | .replyPacket w => .replyPacket w
  | .mainRecv s _ => .mainRecv s false
  | .mainReply s => .mainReply s
  | .clientSend _ key reqType => .clientSend false key reqType
  | .clientRecv _ => .clientRecv false

/-- The first round, after which the client hears of the new owner and sends a request
there. -/
def movedRun : List (System.Label 2 Unit) :=
  askRun ++ collectRun ++ transferRun ++
    [.clientSend () keyA (.update .v), .mainRecv 0 (), .clientRecv (),
      .clientSend () keyA (.update .v)]

/-- Where a request is on its way to. -/
def sentTo (client : Client.State n nb) : Option (Fin nb × Request n) :=
  match client.point with
  | .sent s request => some (s, request)
  | _ => none

omit [NeZero nb] in
theorem eq_sent_of_sentTo {client : Client.State n nb} {s : Fin nb} {request : Request n}
    (h : sentTo client = some (s, request)) : client.point = .sent s request := by
  unfold sentTo at h
  split at h <;> cases h
  assumption

end Sample

/-- Entry 0 has moved to server 1.  The first client has been told and its next request is
for server 1; the second one has not and asks server 0, where the version is another. -/
theorem version_identifies_owner_stale_client :
    ∃ (x : State 4 2 (EaclIndedh.EaclData 4) Bool) (request request' : Request 4),
      (x.client false).point = .sent 1 request ∧ request.entryVersion = 1 ∧
        (x.srv 1).table.idSrv request.index = 1 ∧
        (x.client true).point = .sent 0 request' ∧ request'.index = request.index ∧
        request'.entryVersion = 0 ∧ (x.srv 0).table.idSrv request.index = 1 := by
  have hrun : ((run (step32 sampleHash)
      (movedRun.map ofFirst ++ [.clientSend true keyA .read])
      (init 4 2 (EaclIndedh.EaclData 4) Bool)).any fun x =>
          (sentTo (x.client false)).any fun p => (sentTo (x.client true)).any fun p' =>
            decide (p.1 = 1 ∧ p.2.entryVersion = 1 ∧
              (x.srv 1).table.state p.2.index = false ∧
              p.2.entryVersion = (x.srv 1).table.nVer p.2.index ∧
              p'.1 = 0 ∧ p'.2.index = p.2.index ∧ p'.2.entryVersion = 0 ∧
              (x.srv 0).table.nVer p.2.index = (x.srv 1).table.nVer p.2.index)) = true := by
    decide +kernel
  obtain ⟨x, hx, hp⟩ := (Option.any_eq_true _ _).mp hrun
  obtain ⟨⟨s, request⟩, hsent, hp⟩ := (Option.any_eq_true _ _).mp hp
  obtain ⟨⟨s', request'⟩, hsent', hp⟩ := (Option.any_eq_true _ _).mp hp
  obtain ⟨rfl, hver, hstate, hrow, rfl, hindex, hver', hsame⟩ := of_decide_eq_true hp
  have hpoint := eq_sent_of_sentTo hsent
  obtain ⟨_, hunique, hexecutes⟩ :=
    version_identifies_owner sampleHash x (reach_of_run _ Reach.start hx)
  have howner := (hexecutes 1 false request hpoint
    (distributionPostReceive_accepted.mpr ⟨hstate, hrow⟩)).2
  refine ⟨x, request, request', hpoint, hver, howner, eq_sent_of_sentTo hsent', hindex, hver', ?_⟩
  rw [hunique _ _ (Holds.server 0) (Holds.server 1) request.index hsame]
  exact howner

end MeDiE.System
