import MeDiE.Manager.RelabDhMoves
import MeDiE.Verified.GreedyClose

/-!
# The matching of servers in `manager_calculate_relab` of `manager_dh.c`

The matching works on load values: what is chosen for an idle server are values,
and the server that gives such a load is looked up by the value.  The look-up
always finds the first server with that load, so the values chosen for the idle
servers and the servers that got a target agree exactly when no value is handed
out a second time.
-/

namespace MeDiE.ManagerDh

open MeDiE.Manager
open MeDiE.Table
open MeDiE.Verified.Greedy
open MeDiE.Verified.SwapRemove
open MeDiE.Verified.Word32

variable {n nb : Nat}

/-- `subset_s`, the idle servers. -/
def subsetS (load : Fin nb → Int) : List (Fin nb) :=
  (List.finRange nb).filter (fun s => load s < 0)

/-- `target` and `subset_l` before the loop over `subset_s`. -/
def matchingInit (load : Fin nb → Int) : Matching nb where
  target := id
  subsetL := ((List.finRange nb).filter (fun s => 0 < load s)).map load

/-- `target` and `subset_l` when it is the turn of server `s`. -/
def matchingAt (load : Fin nb → Int) (s : Fin nb) : Matching nb :=
  ((subsetS load).takeWhile (· ≠ s)).foldl (matchServer load) (matchingInit load)

/-- `subset_c` at the turn of server `s`: the values chosen for it. -/
def subsetC (load : Fin nb → Int) (s : Fin nb) : List Int :=
  (managerBalanceLoad (load s) (matchingAt load s).subsetL 0).2

/-- The loads of the overloaded servers that got an idle server as their target
are the values that were chosen for that server. -/
def MatchingFaithful (load : Fin nb → Int) : Prop :=
  ∀ s, load s < 0 →
    (((List.finRange nb).filter (fun l => 0 < load l ∧ targetOf load l = s)).map load).Perm
      (subsetC load s)

/-- Positive loads as numbers, in decreasing order. -/
def descending (list : List Int) : List Nat :=
  (list.map Int.toNat).insertionSort (fun a b => b ≤ a)

/-- What is left in `subset_l` for server `s`. -/
def available (load : Fin nb → Int) (s : Fin nb) : List Nat :=
  descending (matchingAt load s).subsetL

/-- Of a load that two overloaded servers share at most one is handed out: there
is room for one only at the turn of an idle server, and none has been handed out
at an earlier turn when there is. -/
def HandsOutOnce (load : Fin nb → Int) : Prop :=
  ∀ l l', l ≠ l' → load l = load l' → 0 < load l → ∀ s, load s < 0 →
    handedOut (-load s).toNat (available load s) (load l).toNat = 0 ∨
    (handedOut (-load s).toNat (available load s) (load l).toNat = 1 ∧
      (available load s).count (load l).toNat =
        ((List.finRange nb).filter (fun i => load i = load l)).length)

/-! ## What is chosen for one server -/

theorem intsOf_cons (v : Nat) (l : List Nat) : intsOf (v :: l) = (v : Int) :: intsOf l :=
  rfl

/-- The selection loop for a server that lacks `room`. -/
theorem balanceLoop_neg (room : Nat) (last : Option Nat) (list : List Nat)
    (hroom : room ≤ 2 ^ 31) (hfit : ∀ v ∈ list, v < 2 ^ 31) :
    balanceLoop 0 (-(room : Int)) (last.map (↑)) (intsOf list) =
      { subset := intsOf (greedyTake id room list)
        sum := -((room - total id (greedyTake id room list) : Nat) : Int)
        lastIndex := (lastLeft room last list).map (↑) } := by
  induction list generalizing room last with
  | nil => simp [balanceLoop, intsOf, greedyTake, lastLeft]
  | cons v list ih =>
      have hv := hfit v List.mem_cons_self
      have hrest := fun w hw => hfit w (List.mem_cons_of_mem v hw)
      have hsum : toInt32 (-(room : Int) + v) = -(room : Int) + v :=
        toInt32_eq (by omega) (by omega)
      rw [intsOf_cons, balanceLoop, hsum, greedyTake, lastLeft, id_eq]
      by_cases hle : v ≤ room
      · rw [if_pos (by omega), if_pos hle, if_pos hle]
        by_cases hzero : v = 0
        · rw [if_pos (by omega), if_pos hzero, if_pos hzero]
          simp [intsOf]
        · rw [if_neg (by omega), if_neg hzero, if_neg hzero,
            show -(room : Int) + v = -((room - v : Nat) : Int) by omega,
            ih (room - v) last (by omega) hrest, total_cons, ← Nat.sub_sub]
          rfl
      · rw [if_neg (by omega), if_neg hle, if_neg hle]
        exact ih room (some v) hroom hrest

/-- `manager_balance_load` for a server that lacks `room` is the greedy selection
with a closing load. -/
theorem managerBalanceLoad_neg (room : Nat) (list : List Nat) (hroom : room ≤ 2 ^ 31)
    (hfit : ∀ v ∈ list, v < 2 ^ 31) (hne : ∀ v ∈ list, v ≠ 0) :
    managerBalanceLoad (-(room : Int)) (intsOf list) 0 =
      (intsOf (list.insertionSort (fun a b => b ≤ a)),
        intsOf (greedyClose room (list.insertionSort (fun a b => b ≤ a)))) := by
  have hsorted : ∀ v, v ∈ list.insertionSort (fun a b => b ≤ a) ↔ v ∈ list := fun v =>
    (List.perm_insertionSort _ list).mem_iff
  have hloop := balanceLoop_neg room none (list.insertionSort (fun a b => b ≤ a)) hroom
    fun v hv => hfit v ((hsorted v).mp hv)
  unfold managerBalanceLoad greedyClose
  rw [qsort_intsOf list hfit]
  rw [Option.map_none] at hloop
  simp only [hloop]
  cases hlast : lastLeft room none (list.insertionSort (fun a b => b ≤ a)) with
  | none => rfl
  | some v =>
      have hmem := (hsorted v).mp ((lastLeft_mem hlast).resolve_left (by simp))
      have hlt := hfit v hmem
      have hpos := hne v hmem
      have hmissing := Nat.sub_le room (total id (greedyTake id room
        (list.insertionSort (fun a b => b ≤ a))))
      generalize room - total id (greedyTake id room
        (list.insertionSort (fun a b => b ≤ a))) = missing at hmissing ⊢
      have hsum : toInt32 (-(missing : Int) + v) = -(missing : Int) + v :=
        toInt32_eq (by omega) (by omega)
      have hcloser : (-(missing : Int) + v).natAbs < (-(missing : Int)).natAbs ↔
          v < 2 * missing := by omega
      simp only [Option.map_some, hsum, hcloser]
      split
      · simp [intsOf]
      · rfl

/-- `subset_l` holds positive `int`s. -/
def Stocked (list : List Int) : Prop := ∀ v ∈ list, 0 < v ∧ v < 2 ^ 31

section Stock

variable {list : List Int}

theorem intsOf_map_toNat (hlist : Stocked list) : intsOf (list.map Int.toNat) = list := by
  unfold intsOf
  rw [List.map_map]
  refine (List.map_congr_left fun v hv => ?_).trans (List.map_id list)
  exact Int.toNat_of_nonneg (hlist v hv).1.le

theorem intsOf_descending_perm (hlist : Stocked list) :
    (intsOf (descending list)).Perm list := by
  have hperm : (descending list).Perm (list.map Int.toNat) := List.perm_insertionSort _ _
  calc (intsOf (descending list)).Perm (intsOf (list.map Int.toNat)) := hperm.map _
    _ = list := intsOf_map_toNat hlist

theorem count_intsOf (l : List Nat) (v : Nat) : (intsOf l).count (v : Int) = l.count v :=
  List.count_map_of_injective l Int.ofNat Int.ofNat_injective v

theorem descending_ne_zero (hlist : Stocked list) : ∀ v ∈ descending list, v ≠ 0 := by
  intro v hv
  have hmem : (v : Int) ∈ list :=
    (intsOf_descending_perm hlist).subset (List.mem_map_of_mem hv)
  have hpos := (hlist v hmem).1
  omega

/-- `manager_balance_load` for an idle server on what is left of the loads. -/
theorem managerBalanceLoad_stocked {load : Int} (hlist : Stocked list)
    (hlo : -2 ^ 31 ≤ load) (hneg : load < 0) :
    managerBalanceLoad load list 0 =
      (intsOf (descending list), intsOf (greedyClose (-load).toNat (descending list))) := by
  have hbound : ∀ v ∈ list.map Int.toNat, v < 2 ^ 31 ∧ v ≠ 0 := by
    intro v hv
    obtain ⟨w, hw, rfl⟩ := List.mem_map.mp hv
    have hw' := hlist w hw
    omega
  have h := managerBalanceLoad_neg (-load).toNat (list.map Int.toNat) (by omega)
    (fun v hv => (hbound v hv).1) (fun v hv => (hbound v hv).2)
  rwa [intsOf_map_toNat hlist, Int.toNat_of_nonneg (by omega), neg_neg] at h

/-- What is chosen for an idle server is part of what is left. -/
theorem managerBalanceLoad_count_le {load : Int} (hlist : Stocked list)
    (hlo : -2 ^ 31 ≤ load) (hneg : load < 0) (v : Int) :
    (managerBalanceLoad load list 0).2.count v ≤ list.count v := by
  rw [managerBalanceLoad_stocked hlist hlo hneg]
  have hsub : (greedyClose (-load).toNat (descending list)).Subperm (descending list) :=
    greedyClose_subperm _ _ (descending_ne_zero hlist) (List.pairwise_insertionSort _ _)
  calc (intsOf (greedyClose (-load).toNat (descending list))).count v
      ≤ (intsOf (descending list)).count v := (hsub.map Int.ofNat_injective).count_le v
    _ = list.count v := (intsOf_descending_perm hlist).count_eq v

end Stock

/-! ## The turn of one server -/

/-- Every value chosen is taken out of `subset_l` once. -/
theorem count_swapRemove {list : List Int} {c : Int} (v : Int) (hc : c ∈ list) :
    (match list.findIdx? (· = c) with
      | some i => swapRemove list i
      | none => list).count v + [c].count v = list.count v := by
  cases hfind : list.findIdx? (· = c) with
  | none =>
      exact absurd (List.findIdx?_eq_none_iff.mp hfind c hc) (by simp)
  | some i =>
      obtain ⟨hi, heq, _⟩ := List.findIdx?_eq_some_iff_getElem.mp hfind
      have hget : list[i] = c := by simpa using heq
      have hperm := List.getElem_cons_eraseIdx_perm hi
      rw [hget] at hperm
      rw [(swapRemove_perm list hi).count_eq, ← hperm.count_eq, List.count_singleton,
        List.count_cons]

theorem count_foldl_matchLoad (load : Fin nb → Int) (s : Fin nb) (v : Int)
    (chosen : List Int) (st : Matching nb)
    (hsub : ∀ w, chosen.count w ≤ st.subsetL.count w) :
    (chosen.foldl (matchLoad load s) st).subsetL.count v + chosen.count v =
      st.subsetL.count v := by
  induction chosen generalizing st with
  | nil => rfl
  | cons c chosen ih =>
      have hc : c ∈ st.subsetL := by
        refine List.count_pos_iff.mp (Nat.lt_of_lt_of_le ?_ (hsub c))
        rw [List.count_cons_self]
        exact Nat.succ_pos _
      have hstep : ∀ w, (matchLoad load s st c).subsetL.count w + [c].count w =
          st.subsetL.count w := fun w => count_swapRemove w hc
      have hcons : ∀ w, (c :: chosen).count w = chosen.count w + [c].count w := fun w => by
        rw [List.count_cons, List.count_singleton]
      have hrest := ih (matchLoad load s st c) fun w => by
        have h := hsub w
        have hw := hstep w
        rw [hcons] at h
        omega
      have hv := hstep v
      rw [List.foldl_cons, hcons]
      omega

/-- Server `l` is the one that `find_index` finds for its own load. -/
def First (load : Fin nb → Int) (l : Fin nb) : Prop := findIndex (load l) load = some l

instance (load : Fin nb → Int) (l : Fin nb) : Decidable (First load l) :=
  inferInstanceAs (Decidable (findIndex (load l) load = some l))

theorem findIndex_first {load : Fin nb → Int} {c : Int} {l : Fin nb}
    (hfind : findIndex c load = some l) : load l = c ∧ First load l := by
  have hload : load l = c := by simpa using List.find?_some hfind
  exact ⟨hload, by rw [First, hload, hfind]⟩

theorem First.unique {load : Fin nb → Int} {l l' : Fin nb} (hl : First load l)
    (hl' : First load l') (hload : load l = load l') : l = l' := by
  unfold First at hl hl'
  rw [hload, hl'] at hl
  exact (Option.some.inj hl).symm

/-- Every load is the load of a server that `find_index` finds. -/
theorem exists_first (load : Fin nb → Int) (i : Fin nb) :
    ∃ l, First load l ∧ load l = load i := by
  cases hfind : findIndex (load i) load with
  | none => simpa using List.find?_eq_none.mp hfind i (List.mem_finRange i)
  | some l => exact ⟨l, (findIndex_first hfind).2, (findIndex_first hfind).1⟩

theorem matchLoad_target (load : Fin nb → Int) (s : Fin nb) (st : Matching nb) (c : Int)
    (l : Fin nb) :
    (matchLoad load s st c).target l =
      if First load l ∧ load l = c then s else st.target l := by
  cases hfind : findIndex c load with
  | none =>
      have hno : ¬ (First load l ∧ load l = c) := by
        rintro ⟨hfirst, rfl⟩
        exact absurd (hfirst.symm.trans hfind) (by simp)
      simp only [matchLoad, hfind, if_neg hno]
  | some index =>
      obtain ⟨hload, hfirst⟩ := findIndex_first hfind
      simp only [matchLoad, hfind]
      by_cases hl : l = index
      · subst hl
        rw [Function.update_self, if_pos ⟨hfirst, hload⟩]
      · rw [Function.update_of_ne hl, if_neg]
        exact fun h => hl (h.1.unique hfirst (h.2.trans hload.symm))

/-- The values chosen for `s` send it the first servers with these loads. -/
theorem foldl_matchLoad_target (load : Fin nb → Int) (s : Fin nb) (chosen : List Int)
    (st : Matching nb) (l : Fin nb) :
    (chosen.foldl (matchLoad load s) st).target l =
      if First load l ∧ load l ∈ chosen then s else st.target l := by
  induction chosen generalizing st with
  | nil => simp
  | cons c chosen ih =>
      rw [List.foldl_cons, ih, matchLoad_target]
      by_cases hfirst : First load l
      · by_cases hmem : load l ∈ chosen
        · simp [hfirst, hmem]
        · simp [hfirst, hmem]
      · simp [hfirst]

/-- The turn of an idle server: its values leave `subset_l`, and the first server
with each of them gets it as its target. -/
theorem matchServer_spec {load : Fin nb → Int} {st : Matching nb} {s : Fin nb}
    (hst : Stocked st.subsetL) (hlo : -2 ^ 31 ≤ load s) (hneg : load s < 0) :
    (∀ v, (matchServer load st s).subsetL.count v +
      (managerBalanceLoad (load s) st.subsetL 0).2.count v = st.subsetL.count v) ∧
    ∀ l, (matchServer load st s).target l =
      if First load l ∧ load l ∈ (managerBalanceLoad (load s) st.subsetL 0).2 then s
      else st.target l := by
  have hperm : (managerBalanceLoad (load s) st.subsetL 0).1.Perm st.subsetL := by
    rw [managerBalanceLoad_stocked hst hlo hneg]
    exact intsOf_descending_perm hst
  constructor
  · intro v
    rw [← hperm.count_eq v]
    refine count_foldl_matchLoad load s v _ _ fun w => ?_
    rw [hperm.count_eq w]
    exact managerBalanceLoad_count_le hst hlo hneg w
  · exact foldl_matchLoad_target load s _ _

/-! ## The loop over `subset_s` -/

/-- The loads are `int`s. -/
def Ints (load : Fin nb → Int) : Prop := ∀ s, -2 ^ 31 ≤ load s ∧ load s < 2 ^ 31

/-- What holds after the turns of the servers `pre`. -/
structure MatchingInv (load : Fin nb → Int) (pre : List (Fin nb)) (st : Matching nb) :
    Prop where
  count : ∀ v, st.subsetL.count v + (pre.flatMap (subsetC load)).count v =
    (matchingInit load).subsetL.count v
  sound : ∀ l, st.target l ≠ l →
    First load l ∧ st.target l ∈ pre ∧ load l ∈ subsetC load (st.target l)
  given : ∀ l, First load l → ∀ s ∈ pre, load l ∈ subsetC load s →
    (∀ s' ∈ pre, load l ∈ subsetC load s' → s' = s) → st.target l = s

section Run

variable {load : Fin nb → Int}

theorem stocked_matchingInit (hint : Ints load) : Stocked (matchingInit load).subsetL := by
  intro v hv
  obtain ⟨l, hl, rfl⟩ := List.mem_map.mp hv
  have hpos : 0 < load l := by simpa using (List.mem_filter.mp hl).2
  exact ⟨hpos, (hint l).2⟩

theorem MatchingInv.stocked {pre : List (Fin nb)} {st : Matching nb} (hint : Ints load)
    (hinv : MatchingInv load pre st) : Stocked st.subsetL := by
  intro v hv
  have hcount := hinv.count v
  have hpos : 0 < st.subsetL.count v := List.count_pos_iff.mpr hv
  exact stocked_matchingInit hint v (List.count_pos_iff.mp (by omega))

theorem matchingInv_init : MatchingInv load [] (matchingInit load) where
  count _ := by rw [List.flatMap_nil, List.count_nil, Nat.add_zero]
  sound _ h := absurd rfl h
  given _ _ _ hs := absurd hs List.not_mem_nil

theorem MatchingInv.turn {pre : List (Fin nb)} {st : Matching nb} {s : Fin nb}
    (hint : Ints load) (hinv : MatchingInv load pre st) (hneg : load s < 0)
    (hturn : subsetC load s = (managerBalanceLoad (load s) st.subsetL 0).2) :
    MatchingInv load (pre ++ [s]) (matchServer load st s) := by
  obtain ⟨hcount, htarget⟩ := matchServer_spec (hinv.stocked hint) (hint s).1 hneg
  rw [← hturn] at hcount htarget
  constructor
  · intro v
    have h := hinv.count v
    have h' := hcount v
    rw [List.flatMap_append, List.flatMap_singleton, List.count_append]
    omega
  · intro l hne
    rw [htarget l] at hne ⊢
    by_cases hnow : First load l ∧ load l ∈ subsetC load s
    · rw [if_pos hnow]
      exact ⟨hnow.1, by simp, hnow.2⟩
    · rw [if_neg hnow] at hne ⊢
      obtain ⟨hfirst, hmem, hload⟩ := hinv.sound l hne
      exact ⟨hfirst, List.mem_append_left _ hmem, hload⟩
  · intro l hfirst s' hs' hload hunique
    rw [htarget l]
    by_cases hnow : load l ∈ subsetC load s
    · rw [if_pos ⟨hfirst, hnow⟩]
      exact hunique s (by simp) hnow
    · rw [if_neg fun h => hnow h.2]
      have hpre : s' ∈ pre := by
        rcases List.mem_append.mp hs' with hmem | hmem
        · exact hmem
        · rw [List.mem_singleton.mp hmem] at hload
          exact absurd hload hnow
      exact hinv.given l hfirst s' hpre hload fun t ht =>
        hunique t (List.mem_append_left _ ht)

theorem nodup_subsetS (load : Fin nb → Int) : (subsetS load).Nodup :=
  (List.nodup_finRange nb).filter _

theorem mem_subsetS {s : Fin nb} : s ∈ subsetS load ↔ load s < 0 := by
  simp [subsetS]

/-- The servers before `s` in `subset_s` had their turn before it. -/
theorem matchingAt_eq {pre post : List (Fin nb)} {s : Fin nb}
    (hsplit : subsetS load = pre ++ s :: post) :
    matchingAt load s = pre.foldl (matchServer load) (matchingInit load) := by
  have hnodup := nodup_subsetS load
  rw [hsplit] at hnodup
  have hpre : ∀ t ∈ pre, decide (t ≠ s) = true := by
    intro t ht
    have hne : t ≠ s := (List.nodup_append.mp hnodup).2.2 t ht s List.mem_cons_self
    exact decide_eq_true hne
  unfold matchingAt
  rw [hsplit, List.takeWhile_append_of_pos hpre, List.takeWhile_cons_of_neg (by simp),
    List.append_nil]

theorem matchingInv_run (hint : Ints load) (pre post : List (Fin nb))
    (hsplit : subsetS load = pre ++ post) :
    MatchingInv load pre (pre.foldl (matchServer load) (matchingInit load)) := by
  induction pre using List.reverseRecOn generalizing post with
  | nil => exact matchingInv_init
  | append_singleton pre s ih =>
      rw [List.append_assoc, List.singleton_append] at hsplit
      rw [List.foldl_append]
      refine (ih (s :: post) hsplit).turn hint ?_ ?_
      · exact mem_subsetS.mp (by rw [hsplit]; simp)
      · rw [subsetC, matchingAt_eq hsplit]

/-- The matching when the loop is over. -/
theorem matchingInv_end (hint : Ints load) :
    MatchingInv load (subsetS load)
      ((subsetS load).foldl (matchServer load) (matchingInit load)) :=
  matchingInv_run hint _ [] (List.append_nil _).symm

/-! ## Values handed out twice -/

/-- A server other than itself as target comes from a value chosen for it. -/
theorem targetOf_sound (hint : Ints load) {l s : Fin nb} (hs : load s < 0)
    (hl : 0 < load l) (htarget : targetOf load l = s) :
    First load l ∧ load l ∈ subsetC load s := by
  have hne : targetOf load l ≠ l := by
    rintro heq
    rw [heq] at htarget
    rw [htarget] at hl
    omega
  obtain ⟨hfirst, _, hload⟩ := (matchingInv_end hint).sound l hne
  change load l ∈ subsetC load (targetOf load l) at hload
  exact ⟨hfirst, htarget ▸ hload⟩

/-- The turn of server `s`, before and after. -/
theorem subsetC_turn (hint : Ints load) {pre post : List (Fin nb)} {s : Fin nb}
    (hsplit : subsetS load = pre ++ s :: post) :
    Stocked (matchingAt load s).subsetL ∧
      ∀ v, (matchingAt load s).subsetL.count v +
        (pre.flatMap (subsetC load)).count v = (matchingInit load).subsetL.count v := by
  have hinv := matchingInv_run hint pre (s :: post) hsplit
  rw [← matchingAt_eq hsplit] at hinv
  exact ⟨hinv.stocked hint, hinv.count⟩

/-- A value chosen is the load of an overloaded server. -/
theorem mem_subsetC (hint : Ints load) {s : Fin nb} (hs : load s < 0) {v : Int}
    (hv : v ∈ subsetC load s) : ∃ l, First load l ∧ load l = v ∧ 0 < load l := by
  obtain ⟨pre, post, hsplit⟩ := List.append_of_mem (mem_subsetS.mpr hs)
  obtain ⟨hstock, hcount⟩ := subsetC_turn hint hsplit
  have hle : (subsetC load s).count v ≤ (matchingAt load s).subsetL.count v :=
    managerBalanceLoad_count_le hstock (hint s).1 hs v
  have hpos : 0 < (subsetC load s).count v := List.count_pos_iff.mpr hv
  have hinit : v ∈ (matchingInit load).subsetL := by
    have h := hcount v
    exact List.count_pos_iff.mp (by omega)
  obtain ⟨i, hi, rfl⟩ := List.mem_map.mp hinit
  obtain ⟨l, hfirst, hload⟩ := exists_first load i
  exact ⟨l, hfirst, hload, hload ▸ by simpa using (List.mem_filter.mp hi).2⟩

/-- The servers and the values agree exactly when the values chosen for all idle
servers together are distinct. -/
theorem matchingFaithful_iff_nodup (hint : Ints load) :
    MatchingFaithful load ↔ ((subsetS load).flatMap (subsetC load)).Nodup := by
  -- the servers that got `s` are first servers, so their loads are distinct
  have hgivers : ∀ s, load s < 0 → (((List.finRange nb).filter
      (fun l => 0 < load l ∧ targetOf load l = s)).map load).Nodup := by
    intro s hs
    refine List.Nodup.map_on ?_ ((List.nodup_finRange nb).filter _)
    intro l hl l' hl' hload
    have hl : 0 < load l ∧ targetOf load l = s := by simpa using (List.mem_filter.mp hl).2
    have hl' : 0 < load l' ∧ targetOf load l' = s := by
      simpa using (List.mem_filter.mp hl').2
    exact (targetOf_sound hint hs hl.1 hl.2).1.unique
      (targetOf_sound hint hs hl'.1 hl'.2).1 hload
  have hmem : ∀ s v, v ∈ ((List.finRange nb).filter
      (fun l => 0 < load l ∧ targetOf load l = s)).map load ↔
      ∃ l, (0 < load l ∧ targetOf load l = s) ∧ load l = v := by
    intro s v
    simp
  rw [List.nodup_flatMap]
  constructor
  · intro hfaithful
    refine ⟨fun s hs => ?_, ?_⟩
    · have hs := mem_subsetS.mp hs
      exact (hfaithful s hs).nodup_iff.mp (hgivers s hs)
    · refine (nodup_subsetS load).imp_of_mem fun {s s'} hs hs' hne => ?_
      have hs := mem_subsetS.mp hs
      have hs' := mem_subsetS.mp hs'
      intro v hv hv'
      obtain ⟨l, ⟨hpos, htarget⟩, hl⟩ :=
        (hmem s v).mp ((hfaithful s hs).mem_iff.mpr hv)
      obtain ⟨l', ⟨hpos', htarget'⟩, hl'⟩ :=
        (hmem s' v).mp ((hfaithful s' hs').mem_iff.mpr hv')
      have heq : l = l' := (targetOf_sound hint hs hpos htarget).1.unique
        (targetOf_sound hint hs' hpos' htarget').1 (hl.trans hl'.symm)
      exact hne (htarget.symm.trans (heq ▸ htarget'))
  · rintro ⟨hnodup, hdisjoint⟩ s hs
    refine (List.perm_ext_iff_of_nodup (hgivers s hs)
      (hnodup s (mem_subsetS.mpr hs))).mpr fun v => ?_
    rw [hmem s v]
    constructor
    · rintro ⟨l, ⟨hpos, htarget⟩, rfl⟩
      exact (targetOf_sound hint hs hpos htarget).2
    · intro hv
      obtain ⟨l, hfirst, rfl, hpos⟩ := mem_subsetC hint hs hv
      refine ⟨l, ⟨hpos, ?_⟩, rfl⟩
      refine (matchingInv_end hint).given l hfirst s (mem_subsetS.mpr hs) hv ?_
      intro s' hs' hv'
      by_contra hne
      have hsymm : Std.Symm (Function.onFun List.Disjoint (subsetC load)) :=
        ⟨fun _ _ h => List.Disjoint.symm h⟩
      exact hdisjoint.forall hs' (mem_subsetS.mpr hs) hne hv' hv

theorem count_subsetC (hint : Ints load) {s : Fin nb} (hs : load s < 0)
    (hstock : Stocked (matchingAt load s).subsetL) {v : Nat} (hv : v ≠ 0) :
    (subsetC load s).count (v : Int) =
      handedOut (-load s).toNat (available load s) v := by
  unfold subsetC available
  rw [managerBalanceLoad_stocked hstock (hint s).1 hs, count_intsOf]
  exact count_greedyClose _ _ v hv (descending_ne_zero hstock)
    (List.pairwise_insertionSort _ _)

theorem count_available {s : Fin nb} (hstock : Stocked (matchingAt load s).subsetL)
    (v : Nat) : (available load s).count v = (matchingAt load s).subsetL.count (v : Int) := by
  rw [← count_intsOf]
  exact (intsOf_descending_perm hstock).count_eq _

/-- At first `subset_l` holds a load once for every server that has it. -/
theorem count_matchingInit {v : Int} (hv : 0 < v) :
    (matchingInit load).subsetL.count v =
      ((List.finRange nb).filter (fun i => load i = v)).length := by
  unfold matchingInit
  rw [List.count_eq_countP, List.countP_map, List.countP_filter, List.countP_eq_length_filter]
  congr 1
  refine List.filter_congr fun i _ => ?_
  by_cases hload : load i = v
  · simp [hload, hv]
  · simp [hload]

/-- A value chosen for `s` was not chosen before, and is chosen once for `s`. -/
theorem HandsOutOnce.turn (honce : HandsOutOnce load) (hint : Ints load)
    {pre post : List (Fin nb)} {s : Fin nb} (hsplit : subsetS load = pre ++ s :: post)
    {v : Int} (hv : v ∈ subsetC load s) :
    (pre.flatMap (subsetC load)).count v + (subsetC load s).count v ≤ 1 := by
  have hs : load s < 0 := mem_subsetS.mp (by rw [hsplit]; simp)
  obtain ⟨hstock, hleft⟩ := subsetC_turn hint hsplit
  obtain ⟨l, _, rfl, hpos⟩ := mem_subsetC hint hs hv
  have hleft := hleft (load l)
  have hinit : (matchingInit load).subsetL.count (load l) = _ := count_matchingInit hpos
  by_cases hshared : ∃ l', l ≠ l' ∧ load l = load l'
  · obtain ⟨l', hne, hload⟩ := hshared
    have hcast : ((load l).toNat : Int) = load l := Int.toNat_of_nonneg hpos.le
    have hchosen : 0 < (subsetC load s).count (load l) := List.count_pos_iff.mpr hv
    have h := honce l l' hne hload hpos s hs
    rw [← count_subsetC hint hs hstock (by omega), count_available hstock, hcast,
      ← hinit] at h
    omega
  · -- the only server with this load: one copy in all
    have hone : (List.finRange nb).filter (fun i => load i = load l) =
        (List.finRange nb).filter (fun i => i = l) := by
      refine List.filter_congr fun i _ => decide_eq_decide.mpr ?_
      refine ⟨fun hload => ?_, fun heq => congrArg load heq⟩
      by_contra hne
      exact hshared ⟨i, Ne.symm hne, hload.symm⟩
    rw [hone, List.filter_eq, List.length_replicate] at hinit
    have hcount : (List.finRange nb).count l ≤ 1 :=
      List.nodup_iff_count_le_one.mp (List.nodup_finRange nb) l
    have hle : (subsetC load s).count (load l) ≤ (matchingAt load s).subsetL.count (load l) :=
      managerBalanceLoad_count_le hstock (hint s).1 hs (load l)
    omega

/-- Only loads that servers share can be handed out twice, one at a time. -/
theorem handsOutOnce_iff_nodup (hint : Ints load) :
    HandsOutOnce load ↔ ((subsetS load).flatMap (subsetC load)).Nodup := by
  rw [List.nodup_iff_count_le_one]
  constructor
  · intro honce v
    have hpre : ∀ pre post, subsetS load = pre ++ post →
        (pre.flatMap (subsetC load)).count v ≤ 1 := by
      intro pre
      induction pre using List.reverseRecOn with
      | nil => simp
      | append_singleton pre s ih =>
          intro post hsplit
          rw [List.append_assoc, List.singleton_append] at hsplit
          have hle := ih (s :: post) hsplit
          rw [List.flatMap_append, List.flatMap_singleton, List.count_append]
          by_cases hv : v ∈ subsetC load s
          · exact honce.turn hint hsplit hv
          · rw [List.count_eq_zero.mpr hv]
            omega
    exact hpre _ [] (List.append_nil _).symm
  · intro hcount l l' hne hload hpos s hs
    obtain ⟨pre, post, hsplit⟩ := List.append_of_mem (mem_subsetS.mpr hs)
    obtain ⟨hstock, hleft⟩ := subsetC_turn hint hsplit
    have hcast : ((load l).toNat : Int) = load l := Int.toNat_of_nonneg hpos.le
    have hall := hcount (load l)
    rw [hsplit, List.flatMap_append, List.flatMap_cons, List.count_append,
      List.count_append] at hall
    have hleft := hleft (load l)
    rw [← count_subsetC hint hs hstock (by omega), count_available hstock, hcast,
      ← count_matchingInit hpos]
    omega

end Run

/-- Let the relative loads be `int`s.  The servers that got an idle server as their target
are exactly the ones whose loads were chosen for it, for every idle server, if and only if
of the loads that overloaded servers share at most one each is handed out. -/
theorem matchingFaithful_iff (load : Fin nb → Int) (hint : Ints load) :
    MatchingFaithful load ↔ HandsOutOnce load :=
  (matchingFaithful_iff_nodup hint).trans (handsOutOnce_iff_nodup hint).symm

theorem matchingFaithful_iff_shared :
    MatchingFaithful ![5, 5, -5] ↔ HandsOutOnce ![5, 5, -5] :=
  matchingFaithful_iff ![5, 5, -5] (by unfold Ints; decide)

/-- Servers 0 and 1 have a load of 15 each and server 2 has none, so the relative
loads are 5, 5 and -10.  Both loads are chosen for server 2, but only server 0 gets it
as its target. -/
theorem exists_load_chosen_twice :
    ¬ ∀ (nb : Nat) (load : Fin nb → Int), Ints load → MatchingFaithful load := by
  intro h
  have hload : load (mltInit 3 3) ![15, 15, 0] = ![5, 5, -10] := by
    decide +kernel
  have hfaithful := h 3 (load (mltInit 3 3) ![15, 15, 0]) (by rw [hload]; unfold Ints; decide)
  rw [hload] at hfaithful
  exact absurd (hfaithful 2 (by decide)) (by decide +kernel)

end MeDiE.ManagerDh
