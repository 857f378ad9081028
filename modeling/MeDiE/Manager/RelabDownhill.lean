import MeDiE.Manager.RelabLoops
import MeDiE.Manager.RelabDhMoves

/-!
# Entries move downhill

In all three managers an entry that gets a new server goes from a server with too
much load to one with too little, it is not idle, and its version grows by one.
Nothing is assumed about the loads: the selections never pick an idle entry, and a
server that gives entries is not one that is given any.
-/

namespace MeDiE.Verified.Word32

theorem toInt32_toInt32 (x : Int) : toInt32 (toInt32 x) = toInt32 x :=
  Int.bmod_bmod

/-- Only zero is read as zero. -/
theorem toUInt32_toInt32_ne_zero {x : Int} (h : toInt32 x ≠ 0) :
    toUInt32 (toInt32 x) ≠ 0 := by
  unfold toInt32 toUInt32 at *
  rw [Int.bmod_def] at *
  split at h <;> split <;> omega

end MeDiE.Verified.Word32

namespace MeDiE.Manager

open MeDiE.Table
open MeDiE.Verified.SwapRemove
open MeDiE.Verified.Word32

variable {n nb : Nat}

/-- What `table'` has changed in `table`: rows go from a server with positive to one
with negative relative load, with the next version. -/
def MovesDownhill (load : Fin nb → Int) (globalList : Fin n → Nat)
    (table table' : Mlt n (Fin nb)) : Prop :=
  ∀ e, (table'.idSrv e = table.idSrv e ∧ table'.nVer e = table.nVer e) ∨
    (table'.idSrv e ≠ table.idSrv e ∧ table'.nVer e = table.nVer e + 1 ∧
      0 < load (table.idSrv e) ∧ load (table'.idSrv e) < 0 ∧ globalList e ≠ 0)

/-! ## `manager_v2_indedh.c` and `manager_windowed.c` -/

/-- What the loop picks comes from the list and is not idle. -/
theorem balanceLoop_picks {ι : Type} (globalList : ι → Nat) (goal : Int) (list : List ι)
    (sum : Int) (last : Option ι) (hsum : toInt32 sum = sum) :
    (∀ i ∈ (balanceLoop globalList goal sum last list).subset,
        i ∈ list ∧ globalList i ≠ 0) ∧
      toInt32 (balanceLoop globalList goal sum last list).sum =
        (balanceLoop globalList goal sum last list).sum ∧
      ∀ i, (balanceLoop globalList goal sum last list).lastIndex = some i →
        last = some i ∨ i ∈ list := by
  induction list generalizing sum last with
  | nil => exact ⟨fun i hi => absurd hi List.not_mem_nil, hsum, fun i hi => Or.inl hi⟩
  | cons j list ih =>
      rw [balanceLoop]
      split
      · split
        · exact ⟨fun i hi => absurd hi List.not_mem_nil, hsum, fun i hi => Or.inl hi⟩
        · rename_i hload
          obtain ⟨hsub, hsum', hlast⟩ := ih _ last (toInt32_toInt32 (sum + globalList j))
          refine ⟨?_, hsum', ?_⟩
          · intro i hi
            rcases List.mem_cons.mp hi with heq | hi
            · subst heq
              exact ⟨List.mem_cons_self, hload⟩
            · exact ⟨List.mem_cons_of_mem j (hsub i hi).1, (hsub i hi).2⟩
          · exact fun i hi => (hlast i hi).imp_right (List.mem_cons_of_mem j)
      · obtain ⟨hsub, hsum', hlast⟩ := ih sum (some j) hsum
        refine ⟨?_, hsum', ?_⟩
        · exact fun i hi => ⟨List.mem_cons_of_mem j (hsub i hi).1, (hsub i hi).2⟩
        · intro i hi
          rcases hlast i hi with heq | hmem
          · cases heq
            exact Or.inr List.mem_cons_self
          · exact Or.inr (List.mem_cons_of_mem j hmem)

/-- The closing step would gain nothing with an idle entry. -/
theorem managerBalanceLoad_picks {ι : Type} (globalList : ι → Nat) (list : List ι)
    (goal : Int) {i : ι} (hi : i ∈ (managerBalanceLoad globalList 0 list goal).2) :
    i ∈ list ∧ globalList i ≠ 0 := by
  obtain ⟨hsub, hsum, hlast⟩ := balanceLoop_picks globalList goal
    (managerSortSubset list (fun i => toInt32 (globalList i))) 0 none rfl
  have hpicked := fun hmem => (hsub i hmem).imp_left (mem_managerSortSubset _ _ i).mp
  unfold managerBalanceLoad at hi
  dsimp only at hi
  split at hi
  · rename_i j hj
    split at hi
    · rename_i hcloser
      rcases List.mem_append.mp hi with hmem | hmem
      · exact hpicked hmem
      · rw [List.mem_singleton] at hmem
        subst hmem
        have hmem := (hlast i hj).resolve_left (by simp)
        refine ⟨(mem_managerSortSubset _ _ i).mp hmem, fun hzero => ?_⟩
        rw [hzero, Int.natCast_zero, Int.add_zero, hsum] at hcloser
        exact absurd hcloser (lt_irrefl _)
    · exact hpicked hi
  · exact hpicked hi

/-- During the loops over the servers: what is in the two subsets, what is on offer
and where entries have been sent. -/
structure DownhillInv (table : Mlt n (Fin nb)) (globalList : Fin n → Nat)
    (allList : Fin nb → Nat) (st : Relab n nb) : Prop where
  overloaded : ∀ l ∈ st.subsetL, 0 < relativeLoad allList l
  underloaded : ∀ s ∈ st.subsetS, relativeLoad allList s < 0
  offered : ∀ e ∈ st.subsetSrv, 0 < relativeLoad allList (table.idSrv e)
  target : ∀ e, st.target e = table.idSrv e ∨
    (0 < relativeLoad allList (table.idSrv e) ∧
      relativeLoad allList (st.target e) < 0 ∧ globalList e ≠ 0)

section Downhill

variable {table : Mlt n (Fin nb)} {globalList : Fin n → Nat} {allList : Fin nb → Nat}

theorem downhillInv_relabInit :
    DownhillInv table globalList allList (relabInit table allList) where
  overloaded := by simp [relabInit]
  underloaded := by simp [relabInit]
  offered := by simp [relabInit]
  target := fun _ => Or.inl rfl

/-- One entry on offer is given to a server of `subset_s`. -/
theorem DownhillInv.moveEntry {st : Relab n nb}
    (inv : DownhillInv table globalList allList st) (l : Fin nb) {s : Fin nb}
    (hs : relativeLoad allList s < 0) {e : Fin n}
    (he : 0 < relativeLoad allList (table.idSrv e)) (hload : globalList e ≠ 0) :
    DownhillInv table globalList allList (moveEntry globalList l s st e) where
  overloaded := inv.overloaded
  underloaded := inv.underloaded
  offered := inv.offered
  target := by
    intro i
    by_cases hi : i = e
    · subst hi
      have htarget : (Manager.moveEntry globalList l s st i).target i = s :=
        Function.update_self _ _ _
      rw [htarget]
      exact Or.inr ⟨he, hs, hload⟩
    · have htarget : (Manager.moveEntry globalList l s st e).target i = st.target i :=
        Function.update_of_ne hi _ _
      rw [htarget]
      exact inv.target i

theorem DownhillInv.relabTurn {st : Relab n nb}
    (inv : DownhillInv table globalList allList st) (l : Fin nb) {s : Fin nb}
    (hs : s ∈ st.subsetS) :
    DownhillInv table globalList allList (relabTurn globalList l s st) := by
  have hunder := inv.underloaded s hs
  have hmoves : ∀ (set : List (Fin n)) (st : Relab n nb),
      (∀ e ∈ set, 0 < relativeLoad allList (table.idSrv e) ∧ globalList e ≠ 0) →
      DownhillInv table globalList allList st →
      DownhillInv table globalList allList (set.foldl (Manager.moveEntry globalList l s) st) := by
    intro set
    induction set with
    | nil => exact fun st _ inv => inv
    | cons e set ih =>
        intro st hset inv
        obtain ⟨he, hload⟩ := hset e List.mem_cons_self
        exact ih _ (fun i hi => hset i (List.mem_cons_of_mem e hi))
          (inv.moveEntry l hunder he hload)
  apply hmoves
  · intro e he
    obtain ⟨hmem, hload⟩ := managerBalanceLoad_picks _ _ _ he
    exact ⟨inv.offered e hmem, hload⟩
  · constructor
    · exact inv.overloaded
    · exact inv.underloaded
    · intro e he
      change e ∈ (managerBalanceLoad globalList 0 st.subsetSrv (turnGoal st l s)).1 at he
      rw [managerBalanceLoad_fst, mem_managerSortSubset] at he
      exact inv.offered e he
    · exact inv.target

theorem DownhillInv.relabFill {st : Relab n nb}
    (inv : DownhillInv table globalList allList st) {l : Fin nb} (hl : l ∈ st.subsetL) :
    DownhillInv table globalList allList (relabFill table l st) where
  overloaded := inv.overloaded
  underloaded := fun s hs => inv.underloaded s ((mem_managerSortSubset _ _ s).mp hs)
  offered := by
    intro e he
    rcases List.mem_append.mp he with he | he
    · exact inv.offered e he
    · have howner : table.idSrv e = l := by simpa using he
      rw [howner]
      exact inv.overloaded l hl
  target := inv.target

theorem DownhillInv.relabLoopS {st : Relab n nb}
    (inv : DownhillInv table globalList allList st) (l : Fin nb)
    (idxInL fuel idxInS : Nat) :
    DownhillInv table globalList allList
      (relabLoopS globalList l idxInL fuel idxInS st) := by
  induction fuel generalizing idxInS st with
  | zero => exact inv
  | succ fuel ih =>
      rw [Manager.relabLoopS]
      split
      · exact inv
      · rename_i s hget
        have hserve : DownhillInv table globalList allList
            (relabServe globalList l s idxInS st) := by
          have hturn := inv.relabTurn l (List.mem_of_getElem? hget)
          unfold relabServe
          dsimp only
          split
          · exact
              { overloaded := hturn.overloaded
                underloaded := fun s hs => hturn.underloaded s (mem_of_mem_swapRemove hs)
                offered := hturn.offered
                target := hturn.target }
          · exact hturn
        dsimp only
        split
        · exact
            { overloaded := fun s hs => hserve.overloaded s (mem_of_mem_swapRemove hs)
              underloaded := hserve.underloaded
              offered := hserve.offered
              target := hserve.target }
        · exact ih hserve (idxInS + 1)

theorem DownhillInv.relabLoopL {st : Relab n nb}
    (inv : DownhillInv table globalList allList st) (fuel idxInL : Nat) :
    DownhillInv table globalList allList (relabLoopL table globalList fuel idxInL st) := by
  induction fuel generalizing idxInL st with
  | zero => exact inv
  | succ fuel ih =>
      rw [Manager.relabLoopL]
      split
      · exact inv
      · rename_i l hget
        exact ih ((inv.relabFill (List.mem_of_getElem? hget)).relabLoopS l _ _ _) _

end Downhill

theorem managerCalculateRelab_movesDownhill (table : Mlt n (Fin nb))
    (globalList : Fin n → Nat) (allList : Fin nb → Nat) :
    MovesDownhill (relativeLoad allList) globalList table
      (managerCalculateRelabTable table globalList allList) := by
  intro e
  have hver := managerCalculateRelab_nVer table globalList allList e
  have hrun : DownhillInv table globalList allList (relabRun table globalList allList) :=
    downhillInv_relabInit.relabLoopL _ 0
  have htarget := hrun.target e
  rw [← managerCalculateRelab_idSrv] at htarget
  by_cases hsame : table.idSrv e =
      (managerCalculateRelabTable table globalList allList).idSrv e
  · rw [if_pos hsame] at hver
    exact Or.inl ⟨hsame.symm, hver⟩
  · rw [if_neg hsame] at hver
    obtain ⟨hover, hunder, hload⟩ := htarget.resolve_left (Ne.symm hsame)
    exact Or.inr ⟨Ne.symm hsame, hver, hover, hunder, hload⟩

end MeDiE.Manager

namespace MeDiE.ManagerDh

open MeDiE.Manager
open MeDiE.Table
open MeDiE.Verified.Word32

variable {n nb : Nat}

/-! ## `manager_dh.c` -/

/-- What the loop picks comes from the list and is not zero. -/
theorem balanceLoop_picks (goal : Int) (list : List Int) (sum : Int) (last : Option Int)
    (hsum : toInt32 sum = sum) :
    (∀ v ∈ (balanceLoop goal sum last list).subset, v ∈ list ∧ v ≠ 0) ∧
      toInt32 (balanceLoop goal sum last list).sum =
        (balanceLoop goal sum last list).sum ∧
      ∀ v, (balanceLoop goal sum last list).lastIndex = some v → last = some v ∨ v ∈ list := by
  induction list generalizing sum last with
  | nil => exact ⟨fun v hv => absurd hv List.not_mem_nil, hsum, fun v hv => Or.inl hv⟩
  | cons w list ih =>
      rw [balanceLoop]
      split
      · split
        · exact ⟨fun v hv => absurd hv List.not_mem_nil, hsum, fun v hv => Or.inl hv⟩
        · rename_i hload
          obtain ⟨hsub, hsum', hlast⟩ := ih _ last (toInt32_toInt32 (sum + w))
          refine ⟨?_, hsum', ?_⟩
          · intro v hv
            rcases List.mem_cons.mp hv with heq | hv
            · subst heq
              exact ⟨List.mem_cons_self, hload⟩
            · exact ⟨List.mem_cons_of_mem w (hsub v hv).1, (hsub v hv).2⟩
          · exact fun v hv => (hlast v hv).imp_right (List.mem_cons_of_mem w)
      · obtain ⟨hsub, hsum', hlast⟩ := ih sum (some w) hsum
        refine ⟨?_, hsum', ?_⟩
        · exact fun v hv => ⟨List.mem_cons_of_mem w (hsub v hv).1, (hsub v hv).2⟩
        · intro v hv
          rcases hlast v hv with heq | hmem
          · cases heq
            exact Or.inr List.mem_cons_self
          · exact Or.inr (List.mem_cons_of_mem w hmem)

/-- The loads picked are loads of the list, and not zero. -/
theorem managerBalanceLoad_picks (list : List Int) (goal : Int) {v : Int}
    (hv : v ∈ (managerBalanceLoad 0 list goal).2) : v ∈ list ∧ v ≠ 0 := by
  obtain ⟨hsub, hsum, hlast⟩ := balanceLoop_picks goal (qsort list) 0 none rfl
  have hsorted : ∀ w, w ∈ qsort list → w ∈ list := fun w hw =>
    (List.perm_insertionSort _ list).mem_iff.mp hw
  unfold managerBalanceLoad at hv
  dsimp only at hv
  split at hv
  · rename_i w hw
    split at hv
    · rename_i hcloser
      rcases List.mem_append.mp hv with hmem | hmem
      · exact (hsub v hmem).imp_left (hsorted v)
      · rw [List.mem_singleton] at hmem
        subst hmem
        refine ⟨hsorted v ((hlast v hw).resolve_left (by simp)), fun hzero => ?_⟩
        rw [hzero, Int.add_zero, hsum] at hcloser
        exact absurd hcloser (lt_irrefl _)
    · exact (hsub v hv).imp_left (hsorted v)
  · exact (hsub v hv).imp_left (hsorted v)

/-- A picked load is that of an entry which is not idle. -/
theorem subsetSai_ne_zero (table : Mlt n (Fin nb)) (globalList : Fin n → Nat)
    (goal : Int) (srv : Fin nb) {v : Int} (hv : v ∈ subsetSai table globalList goal srv) :
    toUInt32 v ≠ 0 := by
  obtain ⟨hmem, hne⟩ := managerBalanceLoad_picks _ _ hv
  obtain ⟨e, _, heq⟩ := List.mem_map.mp hmem
  rw [← heq] at hne ⊢
  exact toUInt32_toInt32_ne_zero hne

section Downhill

variable {load : Fin nb → Int} {globalList : Fin n → Nat} {table : Mlt n (Fin nb)}

/-- An entry of a server with positive load has not been moved before. -/
theorem movesDownhill_updateEntry {table' : Mlt n (Fin nb)}
    (h : MovesDownhill load globalList table table') {e : Fin n} {target : Fin nb}
    (hover : 0 < load (table'.idSrv e)) (hunder : load target < 0)
    (hload : globalList e ≠ 0) :
    MovesDownhill load globalList table
      (table'.updateEntry e target (table'.nVer e + 1) false) := by
  intro i
  simp only [Mlt.updateEntry_idSrv, Mlt.updateEntry_nVer]
  by_cases hi : i = e
  · subst hi
    simp only [if_true]
    rcases h i with ⟨hsrv, hver⟩ | ⟨_, _, _, hlow, _⟩
    · rw [hsrv] at hover
      have hne : target ≠ table.idSrv i := by
        intro heq
        rw [heq] at hunder
        omega
      exact Or.inr ⟨hne, by rw [hver], hover, hunder, hload⟩
    · omega
  · simp only [if_neg hi]
    exact h i

theorem movesDownhill_giveLoad {srv target : Fin nb} (hover : 0 < load srv)
    (hunder : load target < 0) {sai : Int} (hsai : toUInt32 sai ≠ 0)
    {table' : Mlt n (Fin nb)} (h : MovesDownhill load globalList table table') :
    MovesDownhill load globalList table (giveLoad globalList srv target table' sai) := by
  unfold giveLoad
  generalize List.finRange n = entries
  induction entries generalizing table' with
  | nil => exact h
  | cons e entries ih =>
      rw [List.foldl_cons]
      apply ih
      split
      · rename_i hmoves
        apply movesDownhill_updateEntry h
        · rw [hmoves.2]
          exact hover
        · exact hunder
        · intro hzero
          rw [hzero] at hmoves
          exact hsai hmoves.1.symm
      · exact h

theorem movesDownhill_giveServer {table' : Mlt n (Fin nb)}
    (h : MovesDownhill load globalList table table') (srv : Fin nb) :
    MovesDownhill load globalList table
      (giveServer globalList load (targetOf load) table' srv) := by
  unfold giveServer
  split
  · rename_i hgives
    have hunder := (targetOf_under load srv).resolve_left hgives.2
    have hfold : ∀ (sais : List Int) (table' : Mlt n (Fin nb)),
        (∀ v ∈ sais, toUInt32 v ≠ 0) → MovesDownhill load globalList table table' →
        MovesDownhill load globalList table
          (sais.foldl (giveLoad globalList srv (targetOf load srv)) table') := by
      intro sais
      induction sais with
      | nil => exact fun _ _ h => h
      | cons v sais ih =>
          intro table' hsais h
          exact ih _ (fun w hw => hsais w (List.mem_cons_of_mem v hw))
            (movesDownhill_giveLoad hgives.1 hunder (hsais v List.mem_cons_self) h)
    exact hfold _ _ (fun v hv => subsetSai_ne_zero _ _ _ _ hv) h
  · exact h

end Downhill

theorem managerCalculateRelab_movesDownhill (table : Mlt n (Fin nb))
    (globalList : Fin n → Nat) :
    MovesDownhill (load table globalList) globalList table
      (managerCalculateRelabTable table globalList) := by
  have hfold : ∀ (servers : List (Fin nb)) (table' : Mlt n (Fin nb)),
      MovesDownhill (load table globalList) globalList table table' →
      MovesDownhill (load table globalList) globalList table
        (servers.foldl (giveServer globalList (load table globalList)
          (targetOf (load table globalList))) table') := by
    intro servers
    induction servers with
    | nil => exact fun _ h => h
    | cons srv servers ih => exact fun table' h => ih _ (movesDownhill_giveServer h srv)
  exact hfold _ _ fun _ => Or.inl ⟨rfl, rfl⟩

end MeDiE.ManagerDh

namespace MeDiE.Manager

open MeDiE.Table

variable {n nb : Nat}

/-- The new versions fit in the column if the old ones leave room for one more. -/
theorem MovesDownhill.wrap {load : Fin nb → Int} {globalList : Fin n → Nat}
    {table table' : Mlt n (Fin nb)} (h : MovesDownhill load globalList table table')
    (hver : ∀ e, table.nVer e < 2 ^ 32 - 1) :
    MovesDownhill load globalList table table'.wrap := by
  rwa [Mlt.wrap_eq_self]
  intro e
  have he := hver e
  rcases h e with ⟨_, hsame⟩ | ⟨_, hnext, _⟩ <;> omega

/-- Let every version of the table be below `2 ^ 32 - 1`, so that the next one fits in
the column `n_ver`.  In the table that each manager leaves there every row is the old
one, or it names another server, with the next version: the old server had too much load
when the call computed the relative loads, the new one too little, and the entry was not
idle.  Nothing is assumed about the loads. -/
theorem relab_moves_downhill (table : Mlt n (Fin nb)) (globalList : Fin n → Nat)
    (hver : ∀ e, table.nVer e < 2 ^ 32 - 1) :
    (∀ allList : Fin nb → Nat,
      MovesDownhill (relativeLoad allList) globalList table
        (managerCalculateRelabTable table globalList allList).wrap) ∧
    MovesDownhill (ManagerDh.load table globalList) globalList table
      (ManagerDh.managerCalculateRelabTable table globalList).wrap :=
  ⟨fun allList => (managerCalculateRelab_movesDownhill table globalList allList).wrap hver,
    (ManagerDh.managerCalculateRelab_movesDownhill table globalList).wrap hver⟩

/-- A table with the version 7 in all rows; entry 2 goes from server 0 to server 1. -/
theorem relab_moves_downhill_two_servers :
    (managerCalculateRelabTable { mltInit 4 2 with nVer := fun _ => 7 } ![2, 0, 1, 0]
        ![3, 0]).wrap.nVer 2 = 8 ∧
      MovesDownhill (relativeLoad ![3, 0]) ![2, 0, 1, 0]
        { mltInit 4 2 with nVer := fun _ => 7 }
        (managerCalculateRelabTable { mltInit 4 2 with nVer := fun _ => 7 } ![2, 0, 1, 0]
          ![3, 0]).wrap :=
  ⟨by decide +kernel,
    (relab_moves_downhill { mltInit 4 2 with nVer := fun _ => 7 } ![2, 0, 1, 0]
      (fun _ => show 7 < 2 ^ 32 - 1 by decide)).1 ![3, 0]⟩

/-- With the last version that the column can hold, the row that moves gets version 0. -/
theorem exists_version_wrapped :
    ¬ ∀ (n nb : Nat) (table : Mlt n (Fin nb)), (∀ e, table.nVer e < 2 ^ 32) →
      ∀ (globalList : Fin n → Nat) (allList : Fin nb → Nat),
        MovesDownhill (relativeLoad allList) globalList table
          (managerCalculateRelabTable table globalList allList).wrap := by
  intro h
  have hmoved := h 4 2 { mltInit 4 2 with nVer := fun _ => 2 ^ 32 - 1 }
    (fun _ => show 2 ^ 32 - 1 < 2 ^ 32 by decide) ![2, 0, 1, 0] ![3, 0] 2
  rcases hmoved with ⟨hsrv, _⟩ | ⟨_, hver, _⟩
  · exact absurd hsrv (by decide +kernel)
  · exact absurd hver (by decide +kernel)

end MeDiE.Manager
