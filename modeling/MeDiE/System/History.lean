import MeDiE.System.Cases
import MeDiE.Verified.Versions

/-!
# The tables that the manager has sent out

The tables form a history in the sense of `Verified.Versions`, since
`manager_calculate_relab` raises the version of a row exactly where it changes
the server.  Between two rounds the manager's own table is the last one sent.
-/

namespace MeDiE.System

open MeDiE.Table
open MeDiE.Verified

variable {n nb : Nat} {A C : Type}

/-- The table everyone starts with, as if it had been sent out. -/
def initPacket (n nb : Nat) [NeZero nb] : MltPacket n nb where
  idSrv := (mltInit n nb).idSrv
  nVer := (mltInit n nb).nVer
  meanLoad := 0

/-- The version is raised by one exactly where the server changes. -/
abbrev Follows (m m' : MltPacket n nb) : Prop :=
  Versions.Follows MltPacket.idSrv MltPacket.nVer m m'

/-- What the manager's table has to do with the last one sent. -/
structure HistoryInv [NeZero nb] (mgr : Manager.State n nb)
    (mlts : List (MltPacket n nb)) : Prop where
  chain : (initPacket n nb :: mlts).IsChain Follows
  last : Follows ((initPacket n nb :: mlts).getLast (by simp)) (mltPacket mgr)
  rest : mgr.point ≠ .sendMlt →
    ((initPacket n nb :: mlts).getLast (by simp)).idSrv = mgr.table.idSrv ∧
      ((initPacket n nb :: mlts).getLast (by simp)).nVer = mgr.table.nVer

/-! ## The history is kept -/

variable [NeZero nb]

theorem historyInv_init : HistoryInv (Manager.State.init n nb) [] where
  chain := List.isChain_singleton _
  last := fun _ => ⟨fun _ => rfl, fun h => absurd rfl h⟩
  rest := fun _ => ⟨rfl, rfl⟩

/-- The table stays, and the manager is not about to send one. -/
theorem HistoryInv.of_table {mgr mgr' : Manager.State n nb}
    {mlts : List (MltPacket n nb)} (inv : HistoryInv mgr mlts)
    (htable : mgr'.table = mgr.table) (hp : mgr.point ≠ .sendMlt) :
    HistoryInv mgr' mlts where
  chain := inv.chain
  last := by
    have hlast := inv.last
    intro e
    have he := hlast e
    simpa only [mltPacket, htable] using he
  rest := fun _ => by
    rw [htable]
    exact inv.rest hp

theorem HistoryInv.localStep {mgr mgr' : Manager.State n nb}
    {mlts : List (MltPacket n nb)} (inv : HistoryInv mgr mlts)
    (h : Manager.LocalStep mgr mgr') : HistoryInv mgr' mlts := by
  cases h with
  | relabelling hp =>
      obtain ⟨hsrv, hver⟩ := inv.rest (by simp [hp])
      constructor
      · exact inv.chain
      · intro e
        rw [hsrv, hver]
        have hnew := Manager.managerCalculateRelab_nVer mgr.table mgr.globalList
          mgr.allList e
        constructor
        · intro heq
          exact hnew.trans (if_pos heq)
        · intro hne
          exact hnew.trans (if_neg hne)
      · intro hne
        exact absurd rfl hne
  | oldHelp h hp hepoch => exact inv.of_table rfl (by simp [hp])
  | newHelp h hp hepoch => exact inv.of_table rfl (by simp [hp])
  | epochReached h hp hepoch => exact inv.of_table rfl (by simp [hp])
  | processed h hp hprocessed => exact inv.of_table rfl (by simp [hp])
  | notProcessed h hp hprocessed => exact inv.of_table rfl (by simp [hp])
  | newAsk hp => exact inv.of_table rfl (by simp [hp])
  | collected nbRcv hp hall => exact inv.of_table rfl (by simp [hp])
  | setProcessed hp => exact inv.of_table rfl (by simp [hp])

/-- The manager sends its table. -/
theorem HistoryInv.sendMlt {mgr : Manager.State n nb} {mlts : List (MltPacket n nb)}
    (inv : HistoryInv mgr mlts) (point : Manager.Point) :
    HistoryInv { mgr with point := point } (mlts ++ [mltPacket mgr]) := by
  have hlast : ∀ h, (initPacket n nb :: (mlts ++ [mltPacket mgr])).getLast h =
      mltPacket mgr := by
    intro h
    simp [List.getLast_cons]
  constructor
  · rw [← List.cons_append, List.isChain_append]
    refine ⟨inv.chain, List.isChain_singleton _, ?_⟩
    intro m hm m' hm'
    rw [List.getLast?_eq_some_getLast (by simp), Option.mem_some_iff] at hm
    rw [List.head?_cons, Option.mem_some_iff] at hm'
    rw [← hm, ← hm']
    exact inv.last
  · rw [hlast]
    exact fun e => ⟨fun _ => rfl, fun h => absurd rfl h⟩
  · intro _
    rw [hlast]
    exact ⟨rfl, rfl⟩

variable [Eacl A n] [DecidableEq C]

theorem HistoryInv.step {hash : Storage.Key → Fin n} {x y : State n nb A C}
    {l : Label nb C} (inv : HistoryInv x.mgr x.log.mlts) (h : Step hash x l y) :
    HistoryInv y.mgr y.log.mlts := by
  cases h with
  | usrHandler2 => exact ⟨inv.chain, inv.last, inv.rest⟩
  | manager mgr h => exact inv.localStep h
  | recvHelp s epoch push hp hpush => exact inv.of_table rfl (by simp [hp])
  | discardEacl s id sai loadLvl push hp hpush => exact inv
  | discardHelp s epoch nbRcv push hp hrcv hpush => exact inv
  | recvEacl s id sai loadLvl nbRcv push hp hrcv hpush =>
      exact inv.of_table rfl (by simp [hp])
  | sendAsk epoch hp => exact inv.of_table rfl (by simp [hp])
  | sendMlt hp => exact inv.sendMlt _
  | server s l srv h => exact inv
  | takePacket w s sender left packet hw hwire => exact inv
  | replyPacket w source sender entry left hw => exact inv
  | accept s c request hc hmain haccept => simpa using inv
  | refuse s c request reply hc hmain hrefuse => exact inv
  | answer s c request done getValue hmain => simpa using inv
  | clientSend c key reqType hc => exact inv
  | clientRecv c reply hc => exact inv

theorem historyInv_of_reachable {hash : Storage.Key → Fin n} {x : State n nb A C}
    (h : Reachable hash x) : HistoryInv x.mgr x.log.mlts :=
  h.invariant (I := fun x => HistoryInv x.mgr x.log.mlts) historyInv_init
    fun _ _ _ _ inv hstep => inv.step hstep

end MeDiE.System
