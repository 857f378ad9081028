import MeDiE.System.Quiet
import MeDiE.Verified.Overlay

/-!
# What the manager collects

In a run without transfer errors, in which no entry is cleared in the middle of an
assignment to its index, an `EACL` has indices for the entries of its sender only: when a
server reads its list it has taken over the last table, and the entries of others are
quiet.  So the `EACL`s of a round are apart and may be merged in any order.  What is left
at an entry is the index that its owner has reported, or the old one where the owner has
reported 0.
-/

namespace MeDiE.Server

open MeDiE.System

variable {n nb : Nat} {A C : Type}

/-- The indices of the entries of others are 0. -/
def OwnSai (owner : Fin n → Fin nb) (s : Fin nb) (sai : Fin n → Nat) : Prop :=
  ∀ e, sai e ≠ 0 → owner e = s

/-- The indices a server has read or sent are those of its own entries. -/
structure OwnIndices (owner : Fin n → Fin nb) (s : Fin nb) (srv : State n nb A C) :
    Prop where
  read : ∀ sai, srv.listener = .sendEacl sai → OwnSai owner s sai
  sent : ∀ id sai loadLvl, .eacl id sai loadLvl ∈ srv.push → OwnSai owner id sai

theorem OwnIndices.step [Eacl A n] {owner : Fin n → Fin nb} {s : Fin nb}
    {srv srv' : State n nb A C} {l : Label} (inv : OwnIndices owner s srv)
    (hread : srv.listener = .readSai → OwnSai owner s (Eacl.sai srv.accessList))
    (h : Step s srv l srv') : OwnIndices owner s srv' := by
  cases h with
  | readSai hl =>
      constructor
      · intro sai hsai
        cases hsai
        exact hread hl
      · exact inv.sent
  | sendEacl sai hl =>
      constructor
      · intro sai hsai
        cases hsai
      · intro id sai' loadLvl hmem
        rw [List.mem_append, List.mem_singleton] at hmem
        rcases hmem with hmem | heq
        · exact inv.sent id sai' loadLvl hmem
        · cases heq
          exact inv.read sai hl
  | askRebalancing i max min hi hload =>
      constructor
      · exact inv.read
      · intro id sai loadLvl hmem
        apply inv.sent id sai loadLvl
        simpa using hmem
  | usr2 | calculateSai | setEaclEpoch | resetAccess | threshold | noRebalancing
  | incrAccess | storage | crash => exact ⟨inv.read, inv.sent⟩
  | _ =>
      constructor
      · intro sai hsai
        cases hsai
      · exact inv.sent

theorem OwnIndices.external {owner : Fin n → Fin nb} {s : Fin nb}
    {srv srv' : State n nb A C} (inv : OwnIndices owner s srv) (h : External srv srv') :
    OwnIndices owner s srv' := by
  cases h with
  | push packet push hpush =>
      constructor
      · exact inv.read
      · intro id sai loadLvl hmem
        apply inv.sent id sai loadLvl
        rw [hpush]
        exact List.mem_cons_of_mem _ hmem
  | take sender source packet left hl =>
      constructor
      · intro sai hsai
        cases hsai
      · exact inv.sent
  | reply sender source entry left hl =>
      constructor
      · intro sai hsai
        cases hsai
      · exact inv.sent
  | _ => exact ⟨inv.read, inv.sent⟩

/-- A server that has sent no `EACL` and is not about to. -/
theorem OwnIndices.of_idle {owner : Fin n → Fin nb} {s : Fin nb} {srv : State n nb A C}
    (hpending : srv.pending = []) (hreplies : srv.replies = 0) : OwnIndices owner s srv := by
  constructor
  · intro sai hl
    rw [State.pending, hl] at hpending
    cases hpending
  · intro id sai loadLvl hmem
    exact absurd rfl (List.countP_eq_zero.mp hreplies _ hmem)

end MeDiE.Server

namespace MeDiE.System

open MeDiE.Server
open MeDiE.Storage
open MeDiE.Verified
open MeDiE.Verified.Transition

variable {n nb : Nat} {A C : Type}

/-! ## The indices in the reports -/

/-- The reports are from different servers and have indices for different entries. -/
def ApartReports (r r' : Report n nb) : Prop := r.id ≠ r'.id ∧ Overlay.Apart r.sai r'.sai

theorem ApartReports.symm {r r' : Report n nb} (h : ApartReports r r') :
    ApartReports r' r := ⟨h.1.symm, h.2.symm⟩

variable [NeZero nb]

structure ReportInv (x : State n nb A C) : Prop where
  server : ∀ s, OwnIndices (curOwner x.log.mlts) s (x.srv s)
  report : modeOf x.mgr.point ≠ .rest →
    ∀ r ∈ x.log.reports, OwnSai (curOwner x.log.mlts) r.id r.sai
  apart : x.log.reports.Pairwise ApartReports

/-- A server that handles an `ASK` has taken over the last table. -/
theorem idSrv_of_asked {x : State n nb A C} {drops : Prop}
    (hpoll : Poll.Inv drops (pollOf x)) {s : Fin nb}
    (replica : ReplicaInv x.log.mlts s (x.srv s))
    (hask : handling (x.srv s).listener = [.ask]) :
    (x.srv s).table.idSrv = curOwner x.log.mlts := by
  have hpending : (pollOf x).pending s = .ask :: (x.srv s).sub.map kind := by
    show handling (x.srv s).listener ++ _ = _
    rw [hask]
    rfl
  have hsub : (x.srv s).sub = [] := by
    rcases hpoll.of_pending hpending with ⟨_, hm, _⟩ | ⟨_, _, _, hcase⟩
    · cases hm
    · simpa using hcase
  have hhand : inHandMlt (x.srv s).listener = [] := by
    cases hl : (x.srv s).listener <;> simp_all [handling, inHandMlt]
  have hqueue := replica.queue
  rw [hhand, hsub] at hqueue
  have hplans := Nat.le_antisymm replica.le (List.drop_eq_nil_iff.mp hqueue.symm)
  rw [(replica.rows hhand).1, curOwner, hplans]

variable [Eacl A n] [DecidableEq C]

/-- A server reads indices of its own entries. -/
theorem ownSai_of_readSai {hash : Key → Fin n} {x : State n nb (EaclIndedh.EaclData n) C}
    (hx : Reach (init n nb (EaclIndedh.EaclData n) C) (StepsIf (step hash) ClearsWhole) x)
    {s : Fin nb} (hl : (x.srv s).listener = .readSai) :
    OwnSai (curOwner x.log.mlts) s (Eacl.sai (x.srv s).accessList) := by
  have hreach := reachable_of_noError (reachable_of_clearsWhole hx)
  have htable := idSrv_of_asked (pollInv_of_reachable hreach)
    (replicaInv_of_reachable hreach s) (by rw [hl]; rfl)
  intro e hne
  by_contra howner
  rw [← htable] at howner
  have hquiet := quietInv_of_run hx s e howner (by simp [hl, toClear])
  exact hne hquiet.one.2

omit [NeZero nb] [Eacl A n] [DecidableEq C] in
/-- An answer that comes in while answers are collected is the first of its server. -/
theorem new_report {x : State n nb A C} {drops : Prop} (hpoll : Poll.Inv drops (pollOf x))
    {s : Fin nb} (hown : OwnEacls s (x.srv s)) {id : Fin nb} {sai : Fin n → Nat}
    {loadLvl nbRcv : Nat} {push : List (ToManager n nb)}
    (hp : x.mgr.point = .collect nbRcv)
    (hpush : (x.srv s).push = .eacl id sai loadLvl :: push) :
    id = s ∧ ∀ r ∈ x.log.reports, r.id ≠ id := by
  have hid : id = s := hown id sai loadLvl (by simp [hpush])
  refine ⟨hid, ?_⟩
  intro r hr heq
  have hgot : s ∈ (pollOf x).got := List.mem_map.mpr ⟨r, hr, heq.trans hid⟩
  have hreplies := (hpoll.got (by simp [pollOf, modeOf, hp]) s hgot).2
  rw [replies_of_push hpush] at hreplies
  cases hreplies

theorem ReportInv.step {hash : Key → Fin n} {x y : State n nb (EaclIndedh.EaclData n) C}
    {l : Label nb C}
    (hx : Reach (init n nb (EaclIndedh.EaclData n) C) (StepsIf (step hash) ClearsWhole) x)
    (inv : ReportInv x) (h : Step hash x l y) : ReportInv y := by
  have h' := h
  have hreach := reachable_of_noError (reachable_of_clearsWhole hx)
  have hpoll := pollInv_of_reachable hreach
  have hsrv : l ≠ .managerSend → ∀ s, OwnIndices (curOwner x.log.mlts) s (y.srv s) := by
    intro hl
    apply h.servers_of_ne hl inv.server
    · exact fun s l' srv _ hs => (inv.server s).step (ownSai_of_readSai hx) hs
    · exact fun s srv srv' hext hs => hs.external hext
  cases h with
  | manager mgr h =>
      constructor
      · exact inv.server
      · intro hmode
        apply inv.report
        cases h with
        | collected nbRcv hp hall => simp [hp, modeOf]
        | relabelling hp => simp [hp, modeOf]
        | _ => exact absurd rfl hmode
      · exact inv.apart
  | recvHelp s epoch push hp hpush =>
      constructor
      · exact hsrv (by simp)
      · exact fun hmode => absurd rfl hmode
      · exact inv.apart
  | recvEacl s id sai loadLvl nbRcv push hp hrcv hpush =>
      obtain ⟨hid, hnew⟩ := new_report hpoll (ownEacls_of_reachable hreach s) hp hpush
      have hreport := inv.report (by simp [hp, modeOf])
      have hsai : OwnSai (curOwner x.log.mlts) id sai :=
        (inv.server s).sent id sai loadLvl (by simp [hpush])
      constructor
      · exact hsrv (by simp)
      · intro _ r hr
        rcases List.mem_append.mp hr with hr | hr
        · exact hreport r hr
        · rw [List.mem_singleton.mp hr]
          exact hsai
      · rw [setLog_log, List.pairwise_append]
        refine ⟨inv.apart, List.pairwise_singleton _ _, ?_⟩
        intro r hr r' hr'
        rw [List.mem_singleton.mp hr']
        refine ⟨hnew r hr, fun e => ?_⟩
        by_contra hboth
        obtain ⟨hone, hother⟩ := not_or.mp hboth
        exact hnew r hr ((hreport r hr e hone).symm.trans (hsai e hother))
  | sendAsk epoch hp =>
      constructor
      · exact fun s => ⟨(inv.server s).read, (inv.server s).sent⟩
      · intro _ r hr
        cases hr
      · exact List.Pairwise.nil
  | sendMlt hp =>
      have hmode : (pollOf x).mode = .collected := by simp [pollOf, modeOf, hp]
      constructor
      · intro s
        have hidle := hpoll.got (by simp [hmode]) s (hpoll.all hmode s)
        have hown : OwnIndices (curOwner (x.log.mlts ++ [mltPacket x.mgr])) s (x.srv s) :=
          OwnIndices.of_idle hidle.1 hidle.2
        exact ⟨hown.read, hown.sent⟩
      · exact fun hrest => absurd rfl hrest
      · exact inv.apart
  | usrHandler2 | discardEacl | discardHelp | server | takePacket | replyPacket =>
      exact ⟨hsrv (by simp), inv.report, inv.apart⟩
  | _ =>
      have hsame := h'.sameRounds rfl
      constructor
      · rw [hsame.mlts]
        exact hsrv (by simp)
      · rw [hsame.mgr, hsame.reports, hsame.mlts]
        exact inv.report
      · rw [hsame.reports]
        exact inv.apart

theorem reportInv_of_run {hash : Key → Fin n} {x : State n nb (EaclIndedh.EaclData n) C}
    (hx : Reach (init n nb (EaclIndedh.EaclData n) C) (StepsIf (step hash) ClearsWhole) x) :
    ReportInv x := by
  apply Reach.invariant _ _ hx
  · constructor
    · intro s
      apply OwnIndices.of_idle <;> rfl
    · exact fun hmode => absurd rfl hmode
    · exact List.Pairwise.nil
  · rintro x y hx inv ⟨l, _, hl⟩
    exact inv.step hx (step_cases hl)

/-! ## Merging -/

section Merge

omit [NeZero nb] [Eacl A n] [DecidableEq C]

/-- What the manager does to its two lists for a report. -/
def mergeReport (lists : (Fin n → Nat) × (Fin nb → Nat)) (r : Report n nb) :
    (Fin n → Nat) × (Fin nb → Nat) :=
  (Manager.managerMergeEacl lists.1 r.sai, Function.update lists.2 r.id r.loadLvl)

theorem mergeReport_comm {r r' : Report n nb} (h : ApartReports r r')
    (lists : (Fin n → Nat) × (Fin nb → Nat)) :
    mergeReport (mergeReport lists r) r' = mergeReport (mergeReport lists r') r := by
  apply Prod.ext
  · exact Overlay.overlay_comm h.2 lists.1
  · exact Function.update_comm h.1 _ _ _

/-- Reports that are apart may be merged in any order. -/
theorem foldl_mergeReport_perm {l l' : List (Report n nb)} (h : l'.Perm l)
    (hapart : l.Pairwise ApartReports) (lists : (Fin n → Nat) × (Fin nb → Nat)) :
    l'.foldl mergeReport lists = l.foldl mergeReport lists := by
  apply h.foldl_eq'
  intro r hr r' hr' lists
  by_cases heq : r = r'
  · rw [heq]
  · have hsymm : Std.Symm (@ApartReports n nb) := ⟨fun _ _ => ApartReports.symm⟩
    exact mergeReport_comm (hapart.forall (h.mem_iff.mp hr) (h.mem_iff.mp hr') heq) lists

theorem foldl_mergeReport_fst (l : List (Report n nb))
    (lists : (Fin n → Nat) × (Fin nb → Nat)) :
    (l.foldl mergeReport lists).1 = (l.map Report.sai).foldl Overlay.overlay lists.1 := by
  induction l generalizing lists with
  | nil => rfl
  | cons r l ih =>
      rw [List.foldl_cons, ih]
      rfl

/-- Nothing is merged into the load of a server without a report. -/
theorem foldl_mergeReport_snd_of_notMem {l : List (Report n nb)} {s : Fin nb}
    (h : ∀ r ∈ l, r.id ≠ s) (lists : (Fin n → Nat) × (Fin nb → Nat)) :
    (l.foldl mergeReport lists).2 s = lists.2 s := by
  induction l generalizing lists with
  | nil => rfl
  | cons r l ih =>
      rw [List.foldl_cons, ih fun r' hr' => h r' (List.mem_cons_of_mem _ hr')]
      exact Function.update_of_ne (h r List.mem_cons_self).symm _ _

theorem foldl_mergeReport_snd {l : List (Report n nb)} (hids : (l.map Report.id).Nodup)
    {r : Report n nb} (hr : r ∈ l) (lists : (Fin n → Nat) × (Fin nb → Nat)) :
    (l.foldl mergeReport lists).2 r.id = r.loadLvl := by
  induction l generalizing lists with
  | nil => cases hr
  | cons r' l ih =>
      rw [List.map_cons, List.nodup_cons] at hids
      rw [List.foldl_cons]
      rcases List.mem_cons.mp hr with heq | hr
      · subst heq
        have hnew : ∀ r' ∈ l, r'.id ≠ r.id := fun r' hr' heq =>
          hids.1 (List.mem_map.mpr ⟨r', hr', heq⟩)
        rw [foldl_mergeReport_snd_of_notMem hnew]
        exact Function.update_self _ _ _
      · exact ih hids.2 hr _

end Merge

omit [NeZero nb] [Eacl A n] [DecidableEq C] in
/-- In a round the manager's lists are what merging the reports makes of the lists
before the round. -/
def Merged (x : State n nb A C) : Prop :=
  modeOf x.mgr.point ≠ .rest → ∃ allBefore,
    (x.mgr.globalList, x.mgr.allList) =
      x.log.reports.foldl mergeReport (x.log.globalBefore, allBefore)

omit [NeZero nb] in
theorem Merged.step {hash : Key → Fin n} {x y : State n nb A C} {l : Label nb C}
    (inv : Merged x) (h : Step hash x l y) : Merged y := by
  have h' := h
  cases h with
  | manager mgr h =>
      intro hmode
      cases h with
      | collected nbRcv hp hall => exact inv (by simp [hp, modeOf])
      | relabelling hp => exact inv (by simp [hp, modeOf])
      | _ => exact absurd rfl hmode
  | recvHelp s epoch push hp hpush => exact fun hmode => absurd rfl hmode
  | recvEacl s id sai loadLvl nbRcv push hp hrcv hpush =>
      intro _
      obtain ⟨allBefore, hlists⟩ := inv (by simp [hp, modeOf])
      refine ⟨allBefore, ?_⟩
      rw [setLog_log, List.foldl_append, ← hlists]
      rfl
  | sendAsk epoch hp => exact fun _ => ⟨x.mgr.allList, rfl⟩
  | sendMlt hp => exact fun hmode => absurd rfl hmode
  | usrHandler2 | discardEacl | discardHelp | server | takePacket | replyPacket => exact inv
  | _ =>
      have hsame := h'.sameRounds rfl
      rw [Merged, hsame.mgr, hsame.reports, hsame.globalBefore]
      exact inv

theorem merged_of_reachable {hash : Key → Fin n} {x : State n nb A C}
    (h : Reachable hash x) : Merged x :=
  h.invariant (fun hmode => absurd rfl hmode) fun _ _ _ _ inv hstep => inv.step hstep

/-! ## The order of the answers -/

/-- With the access list of `eacl_indedh.c`, in a run in which no storage operation of a
transfer fails and no sender clears an entry while a handler is in the assignment to its
index: when the manager has left its collection loop it has a report of every server, no
two reports have an index for the same entry, and merging them in any other order gives
the same lists. -/
theorem merge_order_independent (hash : Key → Fin n)
    (x : State n nb (EaclIndedh.EaclData n) C)
    (hx : Reach (init n nb (EaclIndedh.EaclData n) C) (StepsIf (step hash) ClearsWhole) x) :
    (x.mgr.point = .relabelling → x.log.reports.length = nb) ∧
      x.log.reports.Pairwise (fun r r' => ∀ e, r.sai e = 0 ∨ r'.sai e = 0) ∧
      ∀ reports : List (Report n nb), reports.Perm x.log.reports → ∀ lists,
        reports.foldl mergeReport lists = x.log.reports.foldl mergeReport lists := by
  have inv := reportInv_of_run hx
  have hreach := reachable_of_noError (reachable_of_clearsWhole hx)
  refine ⟨?_, inv.apart.imp fun h => h.2, ?_⟩
  · intro hp
    have hmode : (pollOf x).mode = .collected := by simp [pollOf, modeOf, hp]
    have hcount := (pollInv_of_reachable hreach).count_of_collected hmode
    rw [Fintype.card_fin] at hcount
    exact (List.length_map Report.id).symm.trans hcount.1
  · exact fun reports hperm lists => foldl_mergeReport_perm hperm inv.apart lists

section Sample

/-- The key is updated `k` times. -/
def updatesRun (s : Fin 2) (key : Key) (k : Nat) : List (System.Label 2 Unit) :=
  (List.replicate k (requestRun s key (.update .empty))).flatten

/-- There are four requests for each of the keys, and entry 0 is given to server 1.  The
sender of server 0 has sent the entry and is about to clear it. -/
def clearingRun : List (System.Label 2 Unit) :=
  requestRun 0 keyA (.create .empty) ++ updatesRun 0 keyA 3 ++
    requestRun 0 keyK (.create .empty) ++ updatesRun 0 keyK 3 ++
    .usrHandler2 :: signalRun 0 ++ signalRun 1 ++
    [.managerRecv 0, .manager, .manager, .manager, .manager, .managerSend] ++ collectRun ++
    [.manager, .managerSend, .manager] ++ threadRun 0 .listener 6 ++
    threadRun 1 .listener 6 ++ threadRun 0 .sender 7

/-- The rest of the transfer. -/
def clearedRun : List (System.Label 2 Unit) :=
  .takePacket 1 0 :: threadRun 1 .receiver 5 ++ .replyPacket 1 :: threadRun 0 .sender 2 ++
    threadRun 0 .receiver 1 ++ threadRun 1 .sender 1 ++ threadRun 1 .receiver 1 ++
    threadRun 0 .listener 1 ++ threadRun 1 .listener 1

/-- The client hears of the new owner and updates the key there eight times, and server 1
asks for a rebalancing, for which both servers send their lists. -/
def askAgainRun : List (System.Label 2 Unit) :=
  [.clientSend () keyA (.update .empty), .mainRecv 0 (), .clientRecv ()] ++
    updatesRun 1 keyA 8 ++ signalRun 1 ++
    [.managerRecv 1, .manager, .manager, .manager, .manager, .managerSend] ++
    threadRun 0 .listener 5 ++ threadRun 1 .listener 5 ++
    [.managerRecv 0, .managerRecv 1, .manager]

end Sample

/-- Two rounds with a transfer in between; in the second one both servers report an
index. -/
theorem merge_order_independent_second_round :
    ∃ x : SampleState, x.mgr.point = .relabelling ∧
      x.log.reports.map Report.loadLvl = [2, 4] ∧
      ∀ reports : List (Report 4 2), reports.Perm x.log.reports → ∀ lists,
        reports.foldl mergeReport lists = x.log.reports.foldl mergeReport lists := by
  have hrun : ((run (guarded (step sampleHash) ClearsWhole)
      (clearingRun ++ threadRun 0 .sender 1 ++ clearedRun ++ updatesRun 0 keyK 2 ++
        .usrHandler2 :: signalRun 0 ++ askAgainRun) (init 4 2 (EaclIndedh.EaclData 4) Unit)).any
        fun x => decide (x.mgr.point = .relabelling ∧
          x.log.reports.map Report.loadLvl = [2, 4])) = true := by
    decide +kernel
  obtain ⟨x, hx, hp⟩ := (Option.any_eq_true _ _).mp hrun
  obtain ⟨hpoint, hloads⟩ := of_decide_eq_true hp
  exact ⟨x, hpoint, hloads,
    (merge_order_independent sampleHash x (reach_of_guarded_run _ hx)).2.2⟩

/-- `SIGUSR2` of the second epoch comes to server 0 when its sender is about to clear
entry 0.  The handler has read the index of the entry and writes the half of it after the
entry has been cleared.  So both servers report an index for the entry, and the one that
is merged last stays. -/
theorem exists_overlapping_reports :
    ∃ x : SampleState,
      Reach (init 4 2 (EaclIndedh.EaclData 4) Unit) (StepsIf (step sampleHash) NoError) x ∧
        x.mgr.point = .relabelling ∧
        (x.log.reports.map fun r => (r.id, r.sai 0)) = [(0, 1), (1, 4)] ∧
        (x.log.reports.foldl mergeReport (fun _ => 0, fun _ => 0)).1 0 = 4 ∧
        (x.log.reports.reverse.foldl mergeReport (fun _ => 0, fun _ => 0)).1 0 = 1 := by
  have hrun : ((run (guarded (step sampleHash) NoError)
      (clearingRun ++ .usrHandler2 :: .server 0 .usr2 :: threadRun 0 (.handler 0) 3 ++
        threadRun 0 .sender 1 ++ threadRun 0 (.handler 0) 19 ++ clearedRun ++ askAgainRun)
      (init 4 2 (EaclIndedh.EaclData 4) Unit)).any
        fun x => decide (x.mgr.point = .relabelling ∧
          (x.log.reports.map fun r => (r.id, r.sai 0)) = [(0, 1), (1, 4)] ∧
          (x.log.reports.foldl mergeReport (fun _ => 0, fun _ => 0)).1 0 = 4 ∧
          (x.log.reports.reverse.foldl mergeReport (fun _ => 0, fun _ => 0)).1 0 = 1)) =
      true := by
    decide +kernel
  obtain ⟨x, hx, hp⟩ := (Option.any_eq_true _ _).mp hrun
  exact ⟨x, reach_of_guarded_run _ hx, of_decide_eq_true hp⟩

end MeDiE.System
