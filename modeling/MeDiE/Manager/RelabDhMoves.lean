import MeDiE.Manager.RelabDh

/-!
# What the DH relabelling takes from an overloaded server

The entries that leave an overloaded server are those whose load was picked for
it, so they weigh what was picked exactly when no group of equal loads was split
by the selection.
-/

namespace MeDiE.ManagerDh

open MeDiE.Manager
open MeDiE.Table
open MeDiE.Verified.Greedy
open MeDiE.Verified.SwapRemove
open MeDiE.Verified.Word32

variable {n nb : Nat} {table : Mlt n (Fin nb)} {globalList : Fin n → Nat}

/-- What leaves `srv`: the loads of the entries whose owner changes from it. -/
def movedFrom (table : Mlt n (Fin nb)) (globalList : Fin n → Nat) (srv : Fin nb) : Nat :=
  ∑ e with table.idSrv e = srv ∧
    (managerCalculateRelabTable table globalList).idSrv e ≠ srv, globalList e

/-- The entries that leave `srv` weigh what was selected for it; at most its
surplus leaves, and it stays at the balanced level or above. -/
structure MovesSelected (table : Mlt n (Fin nb)) (globalList : Fin n → Nat)
    (srv : Fin nb) : Prop where
  moved : (movedFrom table globalList srv : Int) =
    (subsetSai (tableAt table globalList srv) globalList
      (load table globalList srv) srv).sum
  atMost : (movedFrom table globalList srv : Int) ≤ load table globalList srv
  level : balanced nb globalList ≤
    (ownedLoad globalList (managerCalculateRelabTable table globalList).idSrv srv : Int)

/-- The room that the selection for `srv` has left for entries of load `v` once
the larger loads are dealt with. -/
def roomLeft (table : Mlt n (Fin nb)) (globalList : Fin n → Nat) (srv : Fin nb)
    (v : Nat) : Int :=
  load table globalList srv - (managerBalanceLoad 0
    ((subsetSrv table globalList srv).filter (fun w => (v : Int) < w))
    (load table globalList srv)).2.sum

/-- The room never runs out in the middle of the entries of one load. -/
def WholeGroups (table : Mlt n (Fin nb)) (globalList : Fin n → Nat)
    (srv : Fin nb) : Prop :=
  ∀ e, table.idSrv e = srv → globalList e ≠ 0 →
    roomLeft table globalList srv (globalList e) < globalList e ∨
    ((((List.finRange n).filter (fun i => table.idSrv i = srv ∧
      globalList i = globalList e)).length * globalList e : Nat) : Int) ≤
        roomLeft table globalList srv (globalList e)

/-! ## The selection without wrap-around -/

/-- Loads as the `int`s they are stored as. -/
def intsOf (l : List Nat) : List Int := l.map Int.ofNat

theorem sum_intsOf (l : List Nat) : (intsOf l).sum = (l.sum : Nat) := by
  induction l with
  | nil => rfl
  | cons v l ih =>
      rw [intsOf, List.map_cons, List.sum_cons, List.sum_cons]
      unfold intsOf at ih
      rw [ih]
      simp

theorem filter_intsOf (l : List Nat) (v : Nat) :
    (intsOf l).filter (fun w => (v : Int) < w) = intsOf (l.filter (v < ·)) := by
  unfold intsOf
  rw [List.filter_map]
  refine congrArg _ (List.filter_congr fun w _ => ?_)
  simp

/-- `qsort` on loads that fit in an `int`. -/
theorem qsort_intsOf (l : List Nat) (hfit : ∀ v ∈ l, v < 2 ^ 31) :
    qsort (intsOf l) = intsOf (l.insertionSort (fun a b => b ≤ a)) := by
  refine (List.map_insertionSort (fun a b => b ≤ a) (fun a b => comparator a b ≤ 0)
    Int.ofNat l ?_).symm
  intro a ha b hb
  have hfa := hfit a ha
  have hfb := hfit b hb
  have hcast : ∀ v : Nat, Int.ofNat v = (v : Int) := fun _ => rfl
  unfold comparator
  rw [hcast, hcast, toInt32_eq (by omega) (by omega)]
  omega

/-- As long as all loads together fit in an `int`, the loop takes what the greedy
selection takes, and a load it passed over still fits on top of the sum. -/
theorem balanceLoop_intsOf (goal sum : Nat) (last : Option Int) (list : List Nat)
    (hle : sum ≤ goal) (hfit : sum + list.sum < 2 ^ 31) :
    (balanceLoop goal sum last (intsOf list)).subset =
        intsOf (greedyTake id (goal - sum) list) ∧
      0 ≤ (balanceLoop goal sum last (intsOf list)).sum ∧
      (balanceLoop goal sum last (intsOf list)).sum ≤ (sum + list.sum : Nat) ∧
      ((balanceLoop goal sum last (intsOf list)).lastIndex = last ∨
        ∃ v : Nat, (balanceLoop goal sum last (intsOf list)).lastIndex = some (v : Int) ∧
          (balanceLoop goal sum last (intsOf list)).sum + v ≤
            (sum + list.sum : Nat)) := by
  induction list generalizing sum last with
  | nil => exact ⟨rfl, by simp [balanceLoop, intsOf], by simp [balanceLoop, intsOf],
      Or.inl rfl⟩
  | cons v list ih =>
      rw [List.sum_cons] at hfit ⊢
      have hsum : toInt32 ((sum : Int) + Int.ofNat v) = ((sum + v : Nat) : Int) := by
        have hcast : Int.ofNat v = (v : Int) := rfl
        rw [hcast, toInt32_eq (by omega) (by omega)]
        push_cast
        rfl
      have hzero : Int.ofNat v = 0 ↔ v = 0 := Int.natCast_eq_zero
      rw [show intsOf (v :: list) = Int.ofNat v :: intsOf list from rfl, balanceLoop,
        greedyTake, hsum, id_eq]
      by_cases hc : v ≤ goal - sum
      · rw [if_pos (by omega), if_pos hc]
        by_cases hz : v = 0
        · rw [if_pos (hzero.mpr hz), if_pos hz]
          exact ⟨rfl, by simp, Int.ofNat_le.mpr (by omega), Or.inl rfl⟩
        · rw [if_neg (fun h => hz (hzero.mp h)), if_neg hz]
          obtain ⟨hsub, hlo, hhi, hlast⟩ := ih (sum + v) last (by omega) (by omega)
          rw [← Nat.sub_sub] at hsub
          dsimp only
          refine ⟨?_, hlo, by omega, ?_⟩
          · exact congrArg (Int.ofNat v :: ·) hsub
          · rcases hlast with h | ⟨w, h, hw⟩
            · exact Or.inl h
            · exact Or.inr ⟨w, h, by omega⟩
      · rw [if_neg (by omega), if_neg hc]
        obtain ⟨hsub, hlo, hhi, hlast⟩ := ih sum (some (Int.ofNat v)) hle (by omega)
        refine ⟨hsub, hlo, by omega, Or.inr ?_⟩
        rcases hlast with h | ⟨w, h, hw⟩
        · exact ⟨v, h, by omega⟩
        · exact ⟨w, h, by omega⟩

/-- `manager_balance_load` from load zero is the greedy selection. -/
theorem managerBalanceLoad_intsOf (list : List Nat) (goal : Nat)
    (hfit : list.sum < 2 ^ 31) :
    (managerBalanceLoad 0 (intsOf list) goal).2 =
      intsOf (greedyTake id goal (list.insertionSort (fun a b => b ≤ a))) := by
  have hsum : (list.insertionSort (fun a b => b ≤ a)).sum = list.sum :=
    (List.perm_insertionSort _ list).sum_eq
  obtain ⟨hsub, hlo, hhi, hlast⟩ := balanceLoop_intsOf goal 0 none
    (list.insertionSort (fun a b => b ≤ a)) (Nat.zero_le goal) (by omega)
  unfold managerBalanceLoad
  rw [qsort_intsOf list fun v hv =>
    Nat.lt_of_le_of_lt (List.single_le_sum (by simp) v hv) hfit]
  simp only [Int.natCast_zero, Nat.sub_zero] at hsub hlo hhi hlast ⊢
  rcases hlast with h | ⟨v, h, hv⟩
  · simp only [h, hsub]
  · have hno : ¬ (toInt32 ((balanceLoop goal 0 none
        (intsOf (list.insertionSort (fun a b => b ≤ a)))).sum + v)).natAbs <
        (balanceLoop goal 0 none
          (intsOf (list.insertionSort (fun a b => b ≤ a)))).sum.natAbs := by
      rw [toInt32_eq (by omega) (by omega)]
      omega
    simp only [h, hsub, if_neg hno]

/-! ## Servers that give load -/

/-- A server either keeps its entries or gives them to an underloaded one. -/
theorem targetOf_under (load : Fin nb → Int) (srv : Fin nb) :
    targetOf load srv = srv ∨ load (targetOf load srv) < 0 := by
  have hmatch : ∀ (s : Fin nb) (hs : load s < 0) (cs : List Int) (st : Matching nb),
      (∀ x, st.target x = x ∨ load (st.target x) < 0) →
      ∀ x, (cs.foldl (matchLoad load s) st).target x = x ∨
        load ((cs.foldl (matchLoad load s) st).target x) < 0 := by
    intro s hs cs
    induction cs with
    | nil => exact fun st hst => hst
    | cons c cs ih =>
        intro st hst
        refine ih _ fun x => ?_
        cases hfind : findIndex c load with
        | none => simpa only [matchLoad, hfind] using hst x
        | some index =>
            simp only [matchLoad, hfind]
            by_cases hx : x = index
            · exact Or.inr (by rw [hx, Function.update_self]; exact hs)
            · rw [Function.update_of_ne hx]
              exact hst x
  have hservers : ∀ (ss : List (Fin nb)) (st : Matching nb), (∀ s ∈ ss, load s < 0) →
      (∀ x, st.target x = x ∨ load (st.target x) < 0) →
      ∀ x, (ss.foldl (matchServer load) st).target x = x ∨
        load ((ss.foldl (matchServer load) st).target x) < 0 := by
    intro ss
    induction ss with
    | nil => exact fun st _ hst => hst
    | cons s ss ih =>
        intro st hss hst
        refine ih _ (fun x hx => hss x (List.mem_cons_of_mem s hx)) ?_
        exact hmatch s (hss s (by simp)) _ _ hst
  refine hservers _ _ (fun s hs => ?_) (fun x => Or.inl rfl) srv
  simpa using hs

/-- The entries of `srv` with the picked load go to the target. -/
theorem giveLoad_idSrv (srv target : Fin nb) (table : Mlt n (Fin nb)) (sai : Int)
    (e : Fin n) :
    (giveLoad globalList srv target table sai).idSrv e =
      if globalList e = toUInt32 sai ∧ table.idSrv e = srv then target
      else table.idSrv e := by
  have hfold : ∀ (l : List (Fin n)), l.Nodup → ∀ table : Mlt n (Fin nb),
      (l.foldl (fun table e =>
        if globalList e = toUInt32 sai ∧ table.idSrv e = srv
        then table.updateEntry e target (table.nVer e + 1) false else table)
          table).idSrv e =
        if e ∈ l ∧ (globalList e = toUInt32 sai ∧ table.idSrv e = srv) then target
        else table.idSrv e := by
    intro l
    induction l with
    | nil => simp
    | cons i l ih =>
        intro hl table
        rw [List.nodup_cons] at hl
        rw [List.foldl_cons, ih hl.2]
        by_cases hei : e = i
        · subst hei
          simp only [hl.1, false_and, if_false, List.mem_cons_self, true_and]
          split <;> simp
        · have hkeep : (if globalList i = toUInt32 sai ∧ table.idSrv i = srv
              then table.updateEntry i target (table.nVer i + 1) false
              else table).idSrv e = table.idSrv e := by
            split <;> simp [hei]
          rw [hkeep]
          simp [hei]
  have h := hfold (List.finRange n) (List.nodup_finRange n) table
  simpa [giveLoad] using h

/-- Over all picked loads. -/
theorem foldl_giveLoad_idSrv (srv target : Fin nb) (sais : List Int)
    (table : Mlt n (Fin nb)) (e : Fin n) :
    (sais.foldl (giveLoad globalList srv target) table).idSrv e =
      if (∃ v ∈ sais, globalList e = toUInt32 v) ∧ table.idSrv e = srv then target
      else table.idSrv e := by
  induction sais generalizing table with
  | nil => simp
  | cons v sais ih =>
      rw [List.foldl_cons, ih, giveLoad_idSrv]
      by_cases hv : (globalList e : Int) = toUInt32 v
      · by_cases hs : table.idSrv e = srv
        · simp [hv, hs]
        · simp [hs]
      · simp [hv]

/-- The turn of another server neither takes entries from an overloaded server
nor gives it any. -/
theorem giveServer_other {load : Fin nb → Int} {l srv : Fin nb} (hl : 0 < load l)
    (hne : srv ≠ l) (table : Mlt n (Fin nb)) (e : Fin n) :
    (giveServer globalList load (targetOf load) table srv).idSrv e = l ↔
      table.idSrv e = l := by
  unfold giveServer
  split
  · rename_i hgive
    rw [foldl_giveLoad_idSrv]
    split
    · rename_i hmoved
      have hunder := (targetOf_under load srv).resolve_left hgive.2
      refine ⟨fun heq => ?_, fun heq => absurd (hmoved.2.symm.trans heq) hne⟩
      rw [heq] at hunder
      omega
    · exact Iff.rfl
  · exact Iff.rfl

theorem foldl_giveServer_other {load : Fin nb → Int} {l : Fin nb} (hl : 0 < load l)
    (servers : List (Fin nb)) (hnot : l ∉ servers) (table : Mlt n (Fin nb)) (e : Fin n) :
    (servers.foldl (giveServer globalList load (targetOf load)) table).idSrv e = l ↔
      table.idSrv e = l := by
  induction servers generalizing table with
  | nil => exact Iff.rfl
  | cons srv servers ih =>
      rw [List.mem_cons, not_or] at hnot
      rw [List.foldl_cons, ih hnot.2, giveServer_other hl (Ne.symm hnot.1)]

/-- Up to its turn an overloaded server has the entries of the input table. -/
theorem tableAt_idSrv {l : Fin nb} (hl : 0 < load table globalList l) (e : Fin n) :
    (tableAt table globalList l).idSrv e = l ↔ table.idSrv e = l := by
  refine foldl_giveServer_other hl _ ?_ table e
  rw [List.mem_take_iff_getElem]
  rintro ⟨i, hi, heq⟩
  have hval := congrArg Fin.val heq
  simp only [List.getElem_finRange, Fin.val_cast] at hval
  omega

theorem subsetSai_tableAt {l : Fin nb} (hl : 0 < load table globalList l) :
    subsetSai (tableAt table globalList l) globalList (load table globalList l) l =
      subsetSai table globalList (load table globalList l) l := by
  unfold subsetSai subsetSrv
  simp only [tableAt_idSrv hl]

/-- An entry of an overloaded server that gives load stays with it exactly when
its load was not picked. -/
theorem managerCalculateRelab_idSrv {l : Fin nb} (hl : 0 < load table globalList l)
    (htarget : targetOf (load table globalList) l ≠ l) (e : Fin n) :
    (managerCalculateRelabTable table globalList).idSrv e = l ↔
      table.idSrv e = l ∧ ¬ ∃ v ∈ subsetSai table globalList (load table globalList l) l,
        globalList e = toUInt32 v := by
  have hsplit : List.finRange nb =
      (List.finRange nb).take l ++ l :: (List.finRange nb).drop (l + 1) := by
    conv_lhs => rw [← List.take_append_drop l (List.finRange nb)]
    rw [List.drop_eq_getElem_cons (by simp)]
    simp
  have hnodup := List.nodup_finRange nb
  rw [hsplit, List.nodup_append] at hnodup
  have hrest := (List.nodup_cons.mp hnodup.2.1).1
  unfold managerCalculateRelabTable
  rw [hsplit, List.foldl_append, List.foldl_cons, foldl_giveServer_other hl _ hrest]
  change (giveServer globalList (load table globalList) _ (tableAt table globalList l)
    l).idSrv e = l ↔ _
  have howner := tableAt_idSrv hl e
  unfold giveServer
  rw [if_pos ⟨hl, htarget⟩, foldl_giveLoad_idSrv, subsetSai_tableAt hl]
  split
  · rename_i hmoved
    exact ⟨fun heq => absurd heq htarget, fun heq => absurd hmoved.1 heq.2⟩
  · rename_i hmoved
    rw [howner]
    exact ⟨fun heq => ⟨heq, fun hv => hmoved ⟨hv, howner.mpr heq⟩⟩, fun heq => heq.1⟩

/-! ## Loads -/

/-- The loads of the entries of `srv`. -/
def entryLoads (table : Mlt n (Fin nb)) (globalList : Fin n → Nat) (srv : Fin nb) :
    List Nat :=
  ((List.finRange n).filter (fun e => table.idSrv e = srv)).map globalList

theorem sum_entryLoads (srv : Fin nb) :
    (entryLoads table globalList srv).sum = ownedLoad globalList table.idSrv srv :=
  (sum_filter_eq_list (fun e => table.idSrv e = srv) globalList).symm

section Fits

variable (hfit : ∑ e, globalList e < 2 ^ 31)
include hfit

theorem globalList_lt (e : Fin n) : globalList e < 2 ^ 31 := by
  have hle : globalList e ≤ ∑ e, globalList e :=
    Finset.single_le_sum (fun _ _ => Nat.zero_le _) (Finset.mem_univ e)
  omega

theorem ownedLoad_lt (own : Fin n → Fin nb) (srv : Fin nb) :
    ownedLoad globalList own srv < 2 ^ 31 := by
  have hle : ownedLoad globalList own srv ≤ ∑ e, globalList e :=
    Finset.sum_le_sum_of_subset (Finset.subset_univ _)
  omega

theorem subsetSrv_eq (srv : Fin nb) :
    subsetSrv table globalList srv = intsOf (entryLoads table globalList srv) := by
  unfold subsetSrv intsOf entryLoads
  rw [List.map_map]
  refine List.map_congr_left fun e _ => ?_
  have he := globalList_lt hfit e
  exact toInt32_eq (by omega) (by omega)

theorem balanced_eq : balanced nb globalList = ((∑ e, globalList e) / nb : Nat) := by
  have hsum : sumAll globalList = (∑ e, globalList e : Nat) := by
    rw [Fin.sum_univ_def] at hfit ⊢
    have h := foldl_toInt32 globalList (List.finRange n) 0 (by omega)
    rwa [Nat.zero_add] at h
  unfold balanced wFactor
  rw [hsum, Int.mul_one, Int.one_mul]
  exact (Int.ofNat_tdiv _ _).symm

/-- The relative load, without wrap-around. -/
theorem load_eq (table : Mlt n (Fin nb)) (srv : Fin nb) :
    load table globalList srv =
      ownedLoad globalList table.idSrv srv - ((∑ e, globalList e) / nb : Nat) := by
  have hown := ownedLoad_lt hfit table.idSrv srv
  have hall : all table globalList srv = (ownedLoad globalList table.idSrv srv : Nat) := by
    rw [← sum_entryLoads] at hown ⊢
    have h := foldl_toInt32 globalList
      ((List.finRange n).filter (fun e => table.idSrv e = srv)) 0 (by
        rw [Nat.zero_add]
        exact hown)
    rw [List.foldl_filter, Nat.zero_add] at h
    simp only [decide_eq_true_eq] at h
    exact h
  have hmean : (∑ e, globalList e) / nb ≤ ∑ e, globalList e := Nat.div_le_self _ _
  unfold load
  rw [hall, balanced_eq hfit]
  generalize (∑ e, globalList e) / nb = mean at hmean ⊢
  exact toInt32_eq (by omega) (by omega)

end Fits

/-! ## What leaves an overloaded server -/

/-- The loads of the entries that leave an overloaded server are those that were
picked, each with all the entries that have it. -/
theorem movedFrom_eq {l : Fin nb} (hl : 0 < load table globalList l)
    (htarget : targetOf (load table globalList) l ≠ l) {sais : List Nat}
    (hsai : subsetSai table globalList (load table globalList l) l = intsOf sais)
    (hsmall : ∀ v ∈ sais, v < 2 ^ 31) :
    movedFrom table globalList l =
      ((entryLoads table globalList l).filter (· ∈ sais)).sum := by
  have hpicked : ∀ e, (∃ v ∈ subsetSai table globalList (load table globalList l) l,
      (globalList e : Int) = toUInt32 v) ↔ globalList e ∈ sais := by
    intro e
    rw [hsai]
    constructor
    · rintro ⟨w, hw, heq⟩
      obtain ⟨v, hv, rfl⟩ := List.mem_map.mp hw
      have hlt := hsmall v hv
      have hcast : Int.ofNat v = (v : Int) := rfl
      rw [hcast, toUInt32_eq (by omega) (by omega)] at heq
      rwa [show globalList e = v by omega]
    · intro hv
      have hlt := hsmall _ hv
      refine ⟨Int.ofNat (globalList e), List.mem_map_of_mem hv, ?_⟩
      have hcast : Int.ofNat (globalList e) = (globalList e : Int) := rfl
      rw [hcast, toUInt32_eq (by omega) (by omega)]
  unfold movedFrom entryLoads
  rw [sum_filter_eq_list, List.filter_map, List.filter_filter]
  congr 2
  refine List.filter_congr fun e _ => ?_
  have howner := managerCalculateRelab_idSrv hl htarget e
  rw [hpicked] at howner
  by_cases hown : table.idSrv e = l
  · simp [hown, howner]
  · simp [hown]

/-- What an overloaded server had is what it keeps and what has left it. -/
theorem ownedLoad_eq_movedFrom_add {l : Fin nb} (hl : 0 < load table globalList l)
    (htarget : targetOf (load table globalList) l ≠ l) :
    ownedLoad globalList table.idSrv l = movedFrom table globalList l +
      ownedLoad globalList (managerCalculateRelabTable table globalList).idSrv l := by
  rw [ownedLoad_split globalList table.idSrv
    (managerCalculateRelabTable table globalList).idSrv l, Nat.add_comm]
  refine congrArg (movedFrom table globalList l + ·) ?_
  refine Finset.sum_congr (Finset.filter_congr fun e _ => ?_) fun _ _ => rfl
  have howner := managerCalculateRelab_idSrv hl htarget e
  exact ⟨fun he => he.2, fun he => ⟨(howner.mp he).1, he⟩⟩

section Sorted

variable (hfit : ∑ e, globalList e < 2 ^ 31)
include hfit

theorem sum_entryLoads_lt (l : Fin nb) : (entryLoads table globalList l).sum < 2 ^ 31 := by
  rw [sum_entryLoads]
  exact ownedLoad_lt hfit table.idSrv l

/-- The loads of the entries of a server, as `qsort` leaves them. -/
theorem subsetSai_eq (table : Mlt n (Fin nb)) (l : Fin nb) (goal : Nat) :
    subsetSai table globalList goal l = intsOf (greedyTake id goal
      ((entryLoads table globalList l).insertionSort (fun a b => b ≤ a))) := by
  unfold subsetSai
  rw [subsetSrv_eq hfit, managerBalanceLoad_intsOf _ _ (sum_entryLoads_lt hfit l)]

theorem roomLeft_eq (l : Fin nb) (goal : Nat) (hgoal : load table globalList l = goal)
    (v : Nat) :
    roomLeft table globalList l v = roomFor goal
      ((entryLoads table globalList l).insertionSort (fun a b => b ≤ a)) v := by
  have hperm := List.perm_insertionSort (fun a b : Nat => b ≤ a)
    (entryLoads table globalList l)
  have hsorted : ((entryLoads table globalList l).filter (v < ·)).insertionSort
      (fun a b => b ≤ a) = ((entryLoads table globalList l).insertionSort
        (fun a b => b ≤ a)).filter (v < ·) := by
    refine List.Perm.eq_of_pairwise
      (fun a b _ _ (hab : b ≤ a) (hba : a ≤ b) => Nat.le_antisymm hba hab) ?_ ?_
      ((List.perm_insertionSort _ _).trans (hperm.filter _).symm)
    · exact List.pairwise_insertionSort _ _
    · exact (List.pairwise_insertionSort _ _).filter _
  have hsum : ((entryLoads table globalList l).filter (v < ·)).sum < 2 ^ 31 :=
    Nat.lt_of_le_of_lt (List.filter_sublist.sum_le_sum fun _ _ => Nat.zero_le _)
      (sum_entryLoads_lt hfit l)
  have hle := total_greedyTake_le id goal (((entryLoads table globalList l).insertionSort
    (fun a b => b ≤ a)).filter (v < ·))
  unfold roomLeft roomFor
  rw [hgoal, subsetSrv_eq hfit, filter_intsOf, managerBalanceLoad_intsOf _ _ hsum,
    sum_intsOf, hsorted]
  unfold total at hle ⊢
  rw [List.map_id] at hle ⊢
  omega

end Sorted

theorem count_entryLoads (l : Fin nb) (v : Nat) :
    (entryLoads table globalList l).count v = ((List.finRange n).filter
      (fun i => table.idSrv i = l ∧ globalList i = v)).length := by
  unfold entryLoads
  rw [List.count_eq_length_filter, List.filter_map, List.length_map, List.filter_filter]
  congr 1
  refine List.filter_congr fun e _ => ?_
  by_cases hown : table.idSrv e = l <;> by_cases hv : globalList e = v <;>
    simp [hown, hv]

/-- `WholeGroups`, in terms of the sorted loads. -/
theorem wholeGroups_iff (hfit : ∑ e, globalList e < 2 ^ 31) (l : Fin nb) (goal : Nat)
    (hgoal : load table globalList l = goal) (sorted : List Nat)
    (hsorted : (entryLoads table globalList l).insertionSort (fun a b => b ≤ a) = sorted) :
    WholeGroups table globalList l ↔ ∀ v ∈ sorted, v ≠ 0 →
      roomFor goal sorted v < v ∨ sorted.count v * v ≤ roomFor goal sorted v := by
  have hperm : sorted.Perm (entryLoads table globalList l) :=
    hsorted ▸ List.perm_insertionSort _ _
  have hone : ∀ v, (roomLeft table globalList l v < v ∨
      ((((List.finRange n).filter (fun i => table.idSrv i = l ∧
        globalList i = v)).length * v : Nat) : Int) ≤ roomLeft table globalList l v) ↔
      (roomFor goal sorted v < v ∨ sorted.count v * v ≤ roomFor goal sorted v) := by
    intro v
    rw [roomLeft_eq hfit l goal hgoal, hsorted, ← count_entryLoads, hperm.count_eq]
    exact or_congr Int.ofNat_lt Int.ofNat_le
  unfold WholeGroups
  constructor
  · intro h v hv
    obtain ⟨e, he, rfl⟩ := List.mem_map.mp (hperm.mem_iff.mp hv)
    rw [← hone]
    exact h e (by simpa using he)
  · intro h e he
    rw [hone]
    exact h _ (hperm.mem_iff.mpr (List.mem_map_of_mem (by simpa using he)))

/-- Let the indices sum up to less than `2 ^ 31`, and let `l` be an overloaded server that
another server has been chosen for.  Then the entries that leave `l` are exactly the loads
that were selected for it if and only if no group of its entries of one load was split,
that is, the room never runs out in the middle of such a group. -/
theorem movesSelected_iff_wholeGroups (hfit : ∑ e, globalList e < 2 ^ 31) (l : Fin nb)
    (hl : 0 < load table globalList l)
    (htarget : targetOf (load table globalList) l ≠ l) :
    MovesSelected table globalList l ↔ WholeGroups table globalList l := by
  obtain ⟨goal, hgoal⟩ : ∃ goal : Nat, load table globalList l = goal :=
    ⟨_, (Int.toNat_of_nonneg hl.le).symm⟩
  have hsai : subsetSai table globalList (load table globalList l) l = _ :=
    hgoal ▸ subsetSai_eq hfit table l goal
  have hdesc : ((entryLoads table globalList l).insertionSort
      (fun a b => b ≤ a)).Pairwise (fun a b => b ≤ a) := List.pairwise_insertionSort _ _
  have hperm := List.perm_insertionSort (fun a b : Nat => b ≤ a)
    (entryLoads table globalList l)
  generalize hsorted : (entryLoads table globalList l).insertionSort
    (fun a b => b ≤ a) = sorted at hsai hdesc hperm
  have hsmall : ∀ v ∈ greedyTake id goal sorted, v < 2 ^ 31 := fun v hv =>
    Nat.lt_of_le_of_lt (List.single_le_sum (fun _ _ => Nat.zero_le _) v (hperm.mem_iff.mp
      ((greedyTake_sublist id goal sorted).subset hv))) (sum_entryLoads_lt hfit l)
  have hmoved := movedFrom_eq hl htarget hsai hsmall
  rw [← (hperm.filter _).sum_eq] at hmoved
  have hselect : (movedFrom table globalList l : Int) =
      (subsetSai (tableAt table globalList l) globalList (load table globalList l) l).sum ↔
      (sorted.filter (· ∈ greedyTake id goal sorted)).sum =
        (greedyTake id goal sorted).sum := by
    rw [subsetSai_tableAt hl, hsai, sum_intsOf, hmoved]
    exact Int.ofNat_inj
  rw [wholeGroups_iff hfit l goal hgoal sorted hsorted,
    ← sum_filter_mem_greedyTake_iff goal sorted hdesc, ← hselect]
  refine ⟨fun h => h.moved, fun h => ?_⟩
  have hle := total_greedyTake_le id goal sorted
  have hsum := hselect.mp h
  have hkeep := ownedLoad_eq_movedFrom_add hl htarget
  have hload := load_eq hfit table l
  unfold total at hle
  rw [List.map_id] at hle
  refine
    { moved := h
      atMost := by omega
      level := ?_ }
  rw [balanced_eq hfit]
  omega

/-- Server 0 has 2 too much; 3 does not fit and 1 is picked. -/
theorem movesSelected_distinct_loads :
    MovesSelected (mltInit 4 2) ![3, 0, 1, 0] 0 :=
  (movesSelected_iff_wholeGroups (by decide) 0 (by decide +kernel)
    (by decide +kernel)).mpr (by unfold WholeGroups; decide +kernel)

/-- Server 0 has 3 too much in two entries of load 3: one load is picked, and both
entries leave. -/
theorem exists_split_group_not_movesSelected :
    ∑ e : Fin 100, [3, 0, 3].getD e 0 < 2 ^ 31 ∧
      0 < load (mltInit 100 2) (fun e => [3, 0, 3].getD e 0) 0 ∧
      targetOf (load (mltInit 100 2) (fun e => [3, 0, 3].getD e 0)) 0 ≠ 0 ∧
      ¬ MovesSelected (mltInit 100 2) (fun e => [3, 0, 3].getD e 0) 0 := by
  refine ⟨by decide +kernel, by decide +kernel, by decide +kernel, fun h => ?_⟩
  exact absurd h.atMost (by decide +kernel)

end MeDiE.ManagerDh
