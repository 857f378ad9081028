import MeDiE.Manager.Loads
import MeDiE.System.Reports

/-!
# The manager's view after a round

When the collection loop is left, the load of a server is the one in its `EACL`.
The index of an entry is the one its owner has reported, unless that is 0:
`manager_merge_eacl` takes a 0 for an entry of somebody else, and the index from
earlier rounds stays.
-/

namespace MeDiE.System

open MeDiE.Server
open MeDiE.Storage
open MeDiE.Verified
open MeDiE.Verified.Transition

variable {n nb : Nat} {A C : Type}

/-- No server but `s` has reported an index for the entry. -/
def Sole (report : Fin nb → Report n nb) (s : Fin nb) (e : Fin n) : Prop :=
  ∀ w, w ≠ s → (report w).sai e = 0

/-- What the manager knows after it has collected `report s` from every server `s`. -/
structure View (x : State n nb A C) (report : Fin nb → Report n nb) : Prop where
  collected : ∀ s, report s ∈ x.log.reports ∧ (report s).id = s
  all : ∀ r ∈ x.log.reports, report r.id = r
  load : ∀ s, x.mgr.allList s = (report s).loadLvl
  index : ∀ e, Sole report (x.mgr.table.idSrv e) e →
    x.mgr.globalList e =
      if (report (x.mgr.table.idSrv e)).sai e ≠ 0 then
        (report (x.mgr.table.idSrv e)).sai e
      else x.log.globalBefore e

/-- The load of a server is the sum of the indices of its entries, where the server has
sent such a sum and has reported no 0 for an entry that the manager has had an index
of. -/
theorem View.ownedLoad {x : State n nb A C} {report : Fin nb → Report n nb}
    (view : View x report) (hsole : ∀ e, Sole report (x.mgr.table.idSrv e) e) {s : Fin nb}
    (hload : (report s).loadLvl = ∑ e, (report s).sai e)
    (hzero : ∀ e, x.mgr.table.idSrv e = s → (report s).sai e = 0 →
      x.log.globalBefore e = 0) :
    x.mgr.allList s = Manager.ownedLoad x.mgr.globalList x.mgr.table.idSrv s := by
  rw [view.load, hload, Manager.ownedLoad, Finset.sum_filter]
  apply Finset.sum_congr rfl
  intro e _
  by_cases howner : x.mgr.table.idSrv e = s
  · rw [if_pos howner, view.index e (hsole e), howner]
    by_cases hsai : (report s).sai e = 0
    · rw [if_neg (not_not.mpr hsai), hsai, hzero e howner hsai]
    · rw [if_pos hsai]
  · rw [if_neg howner]
    exact hsole e s fun heq => howner heq.symm

variable [NeZero nb]

variable [Eacl A n] [DecidableEq C]

omit [NeZero nb] [Eacl A n] [DecidableEq C] in
/-- In a complete round there is one report from every server. -/
theorem exists_report {x : State n nb A C} {drops : Prop} (hpoll : Poll.Inv drops (pollOf x))
    (hmode : modeOf x.mgr.point = .collected) :
    ∃ report : Fin nb → Report n nb,
      (∀ s, report s ∈ x.log.reports ∧ (report s).id = s) ∧
        ∀ r ∈ x.log.reports, report r.id = r := by
  have hnodup : (x.log.reports.map Report.id).Nodup :=
    hpoll.nodup (by simp [pollOf, hmode])
  have hall : ∀ s, ∃ r, r ∈ x.log.reports ∧ r.id = s := fun s =>
    List.mem_map.mp (hpoll.all hmode s)
  choose report hreport using hall
  refine ⟨report, hreport, fun r hr => ?_⟩
  exact List.inj_on_of_nodup_map hnodup (hreport r.id).1 hr (hreport r.id).2

theorem view_of_reachable {hash : Key → Fin n} {x : State n nb A C} (h : Reachable hash x)
    (hmode : modeOf x.mgr.point = .collected) : ∃ report, View x report := by
  have hpoll := pollInv_of_reachable h
  obtain ⟨report, hcollected, hall⟩ := exists_report hpoll hmode
  obtain ⟨allBefore, hlists⟩ := merged_of_reachable h (by simp [hmode])
  refine ⟨report, hcollected, hall, ?_, ?_⟩
  · intro s
    have hnodup : (x.log.reports.map Report.id).Nodup :=
      hpoll.nodup (by simp [pollOf, hmode])
    have hload := foldl_mergeReport_snd hnodup (hcollected s).1 (x.log.globalBefore, allBefore)
    rwa [← hlists, (hcollected s).2] at hload
  · intro e hsole
    have hglobal := foldl_mergeReport_fst x.log.reports (x.log.globalBefore, allBefore)
    rw [← hlists] at hglobal
    -- whoever has reported an index for the entry is its owner
    have howner : ∀ r ∈ x.log.reports, r.sai e ≠ 0 → r = report (x.mgr.table.idSrv e) := by
      intro r hr hne
      have hid : r.id = x.mgr.table.idSrv e := by
        by_contra hid
        have hzero := hsole r.id hid
        rw [hall r hr] at hzero
        exact hne hzero
      rw [← hid, hall r hr]
    show x.mgr.globalList e = _
    rw [show x.mgr.globalList = _ from hglobal]
    by_cases hsai : (report (x.mgr.table.idSrv e)).sai e = 0
    · rw [if_neg (not_not.mpr hsai)]
      apply Overlay.foldl_overlay_of_eq
      intro f hf
      obtain ⟨r, hr, rfl⟩ := List.mem_map.mp hf
      by_contra hne
      exact hne (by rw [howner r hr hne, hsai])
    · rw [if_pos hsai]
      apply Overlay.foldl_overlay_of_ne
      · intro f hf hne
        obtain ⟨r, hr, rfl⟩ := List.mem_map.mp hf
        rw [howner r hr hne]
      · exact Or.inr ⟨_, List.mem_map.mpr ⟨_, (hcollected _).1, rfl⟩, hsai⟩

/-- When the collection loop is left, the manager has a load from every server and, for
every entry that only its owner has reported on, the owner's index or, if that is 0,
its own old one.  The load of a server is the sum of the indices of its entries when each
entry was reported on by its owner only, the server has sent the sum of its indices as its
load, and it has sent 0 for no entry of its own that the manager has had an index of. -/
theorem collected_view (hash : Key → Fin n) (x : State n nb A C) (hx : Reachable hash x)
    (hp : x.mgr.point = .relabelling) :
    ∃ report, View x report ∧
      ∀ s, (∀ e, Sole report (x.mgr.table.idSrv e) e) →
        (report s).loadLvl = ∑ e, (report s).sai e →
        (∀ e, x.mgr.table.idSrv e = s → (report s).sai e = 0 → x.log.globalBefore e = 0) →
        x.mgr.allList s = Manager.ownedLoad x.mgr.globalList x.mgr.table.idSrv s := by
  have hmode : modeOf x.mgr.point = .collected := by simp [modeOf, hp]
  obtain ⟨report, view⟩ := view_of_reachable hx hmode
  exact ⟨report, view, fun s hsole hload hzero => view.ownedLoad hsole hload hzero⟩

/-! ## Two rounds -/

/-- The manager after the first round of the sample run: server 0 has a load of 2, which
are the indices of its entries. -/
theorem collected_view_first_round :
    ∃ x : SampleState, x.mgr.point = .relabelling ∧ x.mgr.allList 0 = 2 ∧
      ∀ s, x.mgr.allList s = Manager.ownedLoad x.mgr.globalList x.mgr.table.idSrv s := by
  obtain ⟨x, hx, hp⟩ := exists_of_sampleRun (askRun ++ collectRun)
    (fun x => decide (x.mgr.point = .relabelling ∧ x.mgr.allList 0 = 2 ∧
      (∀ r ∈ x.log.reports, r.loadLvl = ∑ e, r.sai e ∧
        ∀ e, r.id ≠ x.mgr.table.idSrv e → r.sai e = 0) ∧
      ∀ e, x.log.globalBefore e = 0)) (by decide +kernel)
  obtain ⟨hpoint, hload, hreports, hbefore⟩ := of_decide_eq_true hp
  obtain ⟨report, view, howned⟩ := collected_view sampleHash x hx hpoint
  refine ⟨x, hpoint, hload, fun s => howned s ?_ ?_ fun e _ _ => hbefore e⟩
  · intro e w hw
    refine (hreports _ (view.collected w).1).2 e ?_
    rwa [(view.collected w).2]
  · exact (hreports _ (view.collected s).1).1

/-- The second round of the sample run, in which nobody has used any entry. -/
def idleRun : List (System.Label 2 Unit) :=
  askRun ++ collectRun ++ transferRun ++ .usrHandler2 :: signalRun 0 ++ signalRun 1 ++
    [.managerRecv 0, .manager, .manager, .manager, .manager, .managerSend] ++
    threadRun 0 .listener 5 ++ threadRun 1 .listener 5 ++
    [.managerRecv 0, .managerRecv 1, .managerRecv 1, .manager]

/-- Server 0 owns entry 2 and has reported 0 for it, and its load is 0; the manager
has kept the index of the first round. -/
theorem exists_stale_index :
    ∃ x : SampleState, Reachable sampleHash x ∧ x.mgr.point = .relabelling ∧
      x.mgr.table.idSrv 2 = 0 ∧
      (∃ r ∈ x.log.reports, r.id = 0 ∧ r.sai 2 = 0 ∧ r.loadLvl = 0) ∧
      x.mgr.globalList 2 = 1 ∧ x.mgr.allList 0 = 0 ∧
      Manager.ownedLoad x.mgr.globalList x.mgr.table.idSrv 0 = 1 := by
  obtain ⟨x, hx, hp⟩ := exists_of_sampleRun idleRun
    (fun x => decide (x.mgr.point = .relabelling ∧ x.mgr.table.idSrv 2 = 0 ∧
      (∃ r ∈ x.log.reports, r.id = 0 ∧ r.sai 2 = 0 ∧ r.loadLvl = 0) ∧
      x.mgr.globalList 2 = 1 ∧ x.mgr.allList 0 = 0 ∧
      Manager.ownedLoad x.mgr.globalList x.mgr.table.idSrv 0 = 1)) (by decide +kernel)
  exact ⟨x, hx, of_decide_eq_true hp⟩

end MeDiE.System
