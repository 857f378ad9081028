import MeDiE.Server.LoadArgs

/-!
# `load_args_sort` sorts

Hoare's partition leaves an index `q` inside of the range, with nothing above the pivot
up to `q` and nothing below it after `q`.  While the two scans go on there is always an
element that stops each of them: the pivot itself at first, and then the elements that
were exchanged last.
-/

namespace MeDiE.Server

variable {S ι : Type}

/-! ## Rearranging a range -/

theorem getElem?_swap {list : List (S × ι)} {i j : Nat} (hi : i < list.length)
    (hj : j < list.length) (k : Nat) :
    (list.swap i j)[k]? = if k = i then list[j]? else if k = j then list[i]? else list[k]? := by
  rw [List.swap_eq_of_lt hi hj, List.getElem?_set, List.getElem?_set, List.length_set]
  by_cases hkj : j = k
  · subst hkj
    by_cases hij : j = i
    · subst hij
      simp [hj]
    · simp [hij, hi, hj]
  · by_cases hki : i = k
    · subst hki
      simp [hkj, hi, hj]
    · have hki' : ¬ k = i := fun h => hki h.symm
      have hkj' : ¬ k = j := fun h => hkj h.symm
      simp [hkj, hki, hki', hkj']

/-- `list'` has the elements of `list` between `p` and `r` in some places of this range,
and the other elements where they were. -/
structure Rearranged (p r : Nat) (list list' : List (S × ι)) : Prop where
  length_eq : list'.length = list.length
  outside : ∀ m, m < p ∨ r < m → list'[m]? = list[m]?
  inside : ∀ m, p ≤ m → m ≤ r → ∃ m', p ≤ m' ∧ m' ≤ r ∧ list'[m]? = list[m']?

theorem Rearranged.refl (p r : Nat) (list : List (S × ι)) : Rearranged p r list list where
  length_eq := rfl
  outside _ _ := rfl
  inside m hp hr := ⟨m, hp, hr, rfl⟩

theorem Rearranged.trans {p r : Nat} {list list' list'' : List (S × ι)}
    (h : Rearranged p r list list') (h' : Rearranged p r list' list'') :
    Rearranged p r list list'' where
  length_eq := h'.length_eq.trans h.length_eq
  outside m hm := (h'.outside m hm).trans (h.outside m hm)
  inside m hp hr := by
    obtain ⟨m', hp', hr', heq'⟩ := h'.inside m hp hr
    obtain ⟨m'', hp'', hr'', heq''⟩ := h.inside m' hp' hr'
    exact ⟨m'', hp'', hr'', heq'.trans heq''⟩

theorem Rearranged.mono {p p' r r' : Nat} {list list' : List (S × ι)} (hp : p' ≤ p)
    (hr : r ≤ r') (h : Rearranged p r list list') : Rearranged p' r' list list' where
  length_eq := h.length_eq
  outside m hm := h.outside m (by omega)
  inside m hpm hmr := by
    by_cases hm : p ≤ m ∧ m ≤ r
    · obtain ⟨m', hp', hr', heq⟩ := h.inside m hm.1 hm.2
      exact ⟨m', by omega, by omega, heq⟩
    · exact ⟨m, hpm, hmr, h.outside m (by omega)⟩

theorem Rearranged.swap {p r i j : Nat} {list : List (S × ι)} (hi : i < list.length)
    (hj : j < list.length) (hpi : p ≤ i) (hir : i ≤ r) (hpj : p ≤ j) (hjr : j ≤ r) :
    Rearranged p r list (list.swap i j) where
  length_eq := List.length_swap
  outside m hm := by
    rw [getElem?_swap hi hj, if_neg (by omega), if_neg (by omega)]
  inside m hpm hmr := by
    rw [getElem?_swap hi hj]
    split
    · exact ⟨j, hpj, hjr, rfl⟩
    · split
      · exact ⟨i, hpi, hir, rfl⟩
      · exact ⟨m, hpm, hmr, rfl⟩

/-! ## The scans -/

variable [LinearOrder S]

/-- The scan from above ends at an element that is at most the pivot, if there is one. -/
theorem cutDown_spec {list : List (S × ι)} {pivot : S} {j k : Nat} {x : S × ι}
    (hj : j ≤ list.length) (hk : k < j) (hx : list[k]? = some x) (hle : x.1 ≤ pivot) :
    ∃ j' y, cutDown list pivot j = some j' ∧ k ≤ j' ∧ j' < j ∧ list[j']? = some y ∧
      y.1 ≤ pivot ∧ ∀ m z, j' < m → m < j → list[m]? = some z → pivot < z.1 := by
  induction j with
  | zero => omega
  | succ j ih =>
      have hget : list[j]? = some list[j] := List.getElem?_eq_getElem (by omega)
      rw [cutDown, hget]
      by_cases hgt : pivot < list[j].1
      · have hne : k ≠ j := by
          rintro rfl
          rw [hget, Option.some.injEq] at hx
          rw [hx] at hgt
          exact absurd hle (not_le_of_gt hgt)
        obtain ⟨j', y, hdown, hkj, hlt, hy, hyle, hbetween⟩ := ih (by omega) (by omega)
        refine ⟨j', y, by simpa [hgt] using hdown, hkj, by omega, hy, hyle, ?_⟩
        intro m z hm hmj hz
        by_cases hmj' : m = j
        · subst hmj'
          rw [hget, Option.some.injEq] at hz
          exact hz ▸ hgt
        · exact hbetween m z hm (by omega) hz
      · refine ⟨j, list[j], by simp [hgt], by omega, by omega, hget, le_of_not_gt hgt, ?_⟩
        intro m z hm hmj
        omega

/-- The scan from below ends at an element that is at least the pivot, if there is one. -/
theorem cutUp_spec {list : List (S × ι)} {pivot : S} {fuel i k : Nat} {x : S × ι}
    (hik : i ≤ k) (hfuel : k - i < fuel) (hx : list[k]? = some x) (hle : pivot ≤ x.1) :
    ∃ i' y, cutUp list pivot fuel i = some i' ∧ i ≤ i' ∧ i' ≤ k ∧ list[i']? = some y ∧
      pivot ≤ y.1 ∧ ∀ m z, i ≤ m → m < i' → list[m]? = some z → z.1 < pivot := by
  induction fuel generalizing i with
  | zero => omega
  | succ fuel ih =>
      have hk : k < list.length := by
        rw [List.getElem?_eq_some_iff] at hx
        exact hx.1
      have hget : list[i]? = some list[i] := List.getElem?_eq_getElem (by omega)
      rw [cutUp, hget]
      by_cases hlt : list[i].1 < pivot
      · have hne : i ≠ k := by
          rintro rfl
          rw [hget, Option.some.injEq] at hx
          rw [hx] at hlt
          exact absurd hle (not_le_of_gt hlt)
        obtain ⟨i', y, hup, hi, hi', hy, hyle, hbetween⟩ := ih (i := i + 1) (by omega) (by omega)
        refine ⟨i', y, by simpa [hlt] using hup, by omega, hi', hy, hyle, ?_⟩
        intro m z hm hmi hz
        by_cases hmi' : m = i
        · subst hmi'
          rw [hget, Option.some.injEq] at hz
          exact hz ▸ hlt
        · exact hbetween m z (by omega) hmi hz
      · refine ⟨i, list[i], by simp [hlt], le_refl i, hik, hget, le_of_not_gt hlt, ?_⟩
        intro m z hm hmi
        omega

/-! ## The partition -/

/-- Nothing above the pivot from `p` to before `i`, nothing below it from `j` to `r`. -/
structure Partitioned (pivot : S) (p i j r : Nat) (list : List (S × ι)) : Prop where
  low : ∀ m x, p ≤ m → m < i → list[m]? = some x → x.1 ≤ pivot
  high : ∀ m x, j ≤ m → m ≤ r → list[m]? = some x → pivot ≤ x.1

/-- The two loops of `cut`, with an element `k` that stops the scan from above and an
element `l` that stops the one from below. -/
theorem cutLoop_spec {pivot : S} {p r fuel i j k l : Nat} {list : List (S × ι)}
    {x y : S × ι} (hfuel : j - i < fuel) (hpi : p ≤ i) (hjr : j ≤ r + 1)
    (hr : r < list.length) (hpart : Partitioned pivot p i j r list)
    (hpk : p ≤ k) (hkj : k < j) (hx : list[k]? = some x) (hxle : x.1 ≤ pivot)
    (hil : i ≤ l) (hlr : l ≤ r) (hy : list[l]? = some y) (hyle : pivot ≤ y.1) :
    ∃ q list', cutLoop pivot fuel list i j = some (q, list') ∧ p ≤ q ∧ q < j ∧
      (q ≤ l ∨ q + 1 < j) ∧ Rearranged p r list list' ∧
      Partitioned pivot p (q + 1) (q + 1) r list' := by
  induction fuel generalizing list i j k l x y with
  | zero => omega
  | succ fuel ih =>
      obtain ⟨j', z, hdown, hkj', hj'j, hz, hzle, habove⟩ :=
        cutDown_spec (by omega : j ≤ list.length) hkj hx hxle
      obtain ⟨i', w, hup, hii', hi'l, hw, hwle, hbelow⟩ :=
        cutUp_spec hil (show l - i < list.length by omega) hy hyle
      simp only [cutLoop, hdown, hup]
      by_cases hcross : i' < j'
      · rw [if_pos hcross]
        have hi' : i' < list.length := by omega
        have hj' : j' < list.length := by omega
        have hswap := getElem?_swap hi' hj'
        have hpart' : Partitioned pivot p (i' + 1) j' r (list.swap i' j') := by
          constructor
          · intro m u hpm hmi hu
            rw [hswap] at hu
            by_cases hm : m = i'
            · rw [if_pos hm, hz, Option.some.injEq] at hu
              exact hu ▸ hzle
            · rw [if_neg hm, if_neg (by omega)] at hu
              by_cases hmi' : m < i
              · exact hpart.low m u hpm hmi' hu
              · exact (hbelow m u (by omega) (by omega) hu).le
          · intro m u hjm hmr hu
            rw [hswap, if_neg (by omega)] at hu
            by_cases hm : m = j'
            · rw [if_pos hm, hw, Option.some.injEq] at hu
              exact hu ▸ hwle
            · rw [if_neg hm] at hu
              by_cases hmj : m < j
              · exact (habove m u (by omega) hmj hu).le
              · exact hpart.high m u (by omega) hmr hu
        -- the two elements just exchanged stop the next scans
        have hlow : (list.swap i' j')[i']? = some z := by rw [hswap, if_pos rfl, hz]
        have hhigh : (list.swap i' j')[j']? = some w := by
          rw [hswap, if_neg (by omega), if_pos rfl, hw]
        obtain ⟨q, list', hloop, hpq, hqj, _, hrearr, hdone⟩ := ih (by omega) (by omega)
          (by omega) (by rw [List.length_swap]; exact hr) hpart' (by omega) hcross hlow hzle
          (by omega) (by omega) hhigh hwle
        refine ⟨q, list', hloop, hpq, by omega, Or.inr (by omega), ?_, hdone⟩
        exact (Rearranged.swap hi' hj' (by omega) (by omega) (by omega) (by omega)).trans hrearr
      · rw [if_neg hcross]
        refine ⟨j', list, rfl, by omega, hj'j, Or.inl (by omega), Rearranged.refl p r list, ?_⟩
        constructor
        · intro m u hpm hmj hu
          by_cases hmi : m < i
          · exact hpart.low m u hpm hmi hu
          · by_cases hmi' : m < i'
            · exact (hbelow m u (by omega) hmi' hu).le
            · have hm : m = j' := by omega
              rw [hm, hz, Option.some.injEq] at hu
              exact hu ▸ hzle
        · intro m u hjm hmr hu
          by_cases hmj : m < j
          · exact (habove m u (by omega) hmj hu).le
          · exact hpart.high m u (by omega) hmr hu

/-- `cut` splits a range of at least two elements into two parts. -/
theorem cut_spec {list : List (S × ι)} {p r : Nat} (hpr : p < r) (hr : r < list.length) :
    ∃ q list' pivot, cut list p r = some (q, list') ∧ p ≤ q ∧ q < r ∧
      Rearranged p r list list' ∧ Partitioned pivot p (q + 1) (q + 1) r list' := by
  have hget : list[p]? = some list[p] := List.getElem?_eq_getElem (by omega)
  have hpart : Partitioned list[p].1 p p (r + 1) r list := by
    constructor
    · intro m x hpm hmp
      omega
    · intro m x hrm hmr
      omega
  obtain ⟨q, list', hloop, hpq, hq, hqr, hrearr, hdone⟩ :=
    cutLoop_spec (show r + 1 - p < list.length + 1 by omega) (le_refl p) (le_refl (r + 1)) hr
      hpart (le_refl p) (by omega) hget (le_refl _) (le_refl p) hpr.le hget (le_refl _)
  refine ⟨q, list', list[p].1, ?_, hpq, by omega, hrearr, hdone⟩
  rw [cut, hget]
  exact hloop

/-! ## The sort -/

/-- The elements from `p` to `r` are in order. -/
def SortedIn (p r : Nat) (list : List (S × ι)) : Prop :=
  ∀ a b x y, p ≤ a → a ≤ b → b ≤ r → list[a]? = some x → list[b]? = some y → x.1 ≤ y.1

/-- Parts that are rearranged stay on their sides of the pivot. -/
theorem Partitioned.rearranged {pivot : S} {p q r : Nat} {list list' list'' : List (S × ι)}
    (h : Partitioned pivot p (q + 1) (q + 1) r list) (hl : Rearranged p q list list')
    (hr : Rearranged (q + 1) r list' list'') :
    Partitioned pivot p (q + 1) (q + 1) r list'' where
  low m x hpm hmq hx := by
    rw [hr.outside m (by omega)] at hx
    obtain ⟨m', hpm', hmq', heq⟩ := hl.inside m hpm (by omega)
    rw [heq] at hx
    exact h.low m' x hpm' (by omega) hx
  high m x hqm hmr hx := by
    obtain ⟨m', hqm', hmr', heq⟩ := hr.inside m hqm hmr
    rw [heq, hl.outside m' (by omega)] at hx
    exact h.high m' x hqm' hmr' hx

theorem loadArgsSort_spec {fuel p r : Nat} {list : List (S × ι)} (hfuel : r - p < fuel)
    (hr : p < r → r < list.length) :
    ∃ list', loadArgsSort fuel list p r = some list' ∧ Rearranged p r list list' ∧
      SortedIn p r list' := by
  induction fuel generalizing list p r with
  | zero => omega
  | succ fuel ih =>
      rw [loadArgsSort]
      by_cases hpr : p < r
      · obtain ⟨q, cutted, pivot, hcut, hpq, hqr, hrearr, hpart⟩ := cut_spec hpr (hr hpr)
        have hlen := hrearr.length_eq
        obtain ⟨left, hleft, hleftRearr, hleftSorted⟩ :=
          @ih p q cutted (by omega) (by omega)
        have hlen' := hleftRearr.length_eq
        obtain ⟨right, hright, hrightRearr, hrightSorted⟩ :=
          @ih (q + 1) r left (by omega) (by omega)
        have hdone := hpart.rearranged hleftRearr hrightRearr
        refine ⟨right, ?_, ?_, ?_⟩
        · simp only [if_pos hpr, hcut, hleft, hright]
        · exact hrearr.trans ((hleftRearr.mono (le_refl p) (by omega)).trans
            (hrightRearr.mono (by omega) (le_refl r)))
        · intro a b x y hpa hab hbr hx hy
          by_cases hbq : b ≤ q
          · rw [hrightRearr.outside a (by omega)] at hx
            rw [hrightRearr.outside b (by omega)] at hy
            exact hleftSorted a b x y hpa hab hbq hx hy
          · by_cases haq : a ≤ q
            · exact (hdone.low a x hpa (by omega) hx).trans (hdone.high b y (by omega) hbr hy)
            · exact hrightSorted a b x y (by omega) hab hbr hx hy
      · rw [if_neg hpr]
        refine ⟨list, rfl, Rearranged.refl p r list, ?_⟩
        intro a b x y hpa hab hbr hx hy
        have hsame : a = b := by omega
        rw [hsame, hy, Option.some.injEq] at hx
        rw [hx]

/-- A range that is a whole list: all of it is in order. -/
theorem SortedIn.pairwise {list : List (S × ι)} (h : SortedIn 0 (list.length - 1) list) :
    list.Pairwise fun x y => x.1 ≤ y.1 := by
  rw [List.pairwise_iff_getElem]
  intro a b ha hb hab
  exact h a b list[a] list[b] (Nat.zero_le a) hab.le (by omega)
    (List.getElem?_eq_getElem ha) (List.getElem?_eq_getElem hb)

/-- **`load_args_sort` sorts a list in place**: whatever servers and entries it holds, the
recursion ends (at most one level deeper than the list is long), no index outside of the
list is read, the servers are in order afterwards, and the pairs are those of before.  For
the empty list `r` is `-1` in C; `p < r` fails for it as it does for `0`. -/
theorem loadArgsSort_correct (list : List (S × ι)) (spare : Nat) :
    ∃ list', loadArgsSort (list.length + 1 + spare) list 0 (list.length - 1) = some list' ∧
      (list'.Pairwise fun x y => x.1 ≤ y.1) ∧ list'.Perm list := by
  obtain ⟨list', hsort, hrearr, hsorted⟩ :=
    loadArgsSort_spec (show list.length - 1 - 0 < list.length + 1 + spare by omega)
      (fun _ => show list.length - 1 < list.length by omega)
  refine ⟨list', hsort, ?_, loadArgsSort_perm hsort⟩
  rw [← hrearr.length_eq] at hsorted
  exact hsorted.pairwise

/-- The list to send is sorted by server, for every list. -/
theorem sortToSend_sorted (toSend : List (S × ι)) :
    ∃ list, sortToSend toSend = some list ∧ list.Pairwise fun x y => x.1 ≤ y.1 := by
  obtain ⟨list, hsort, hrearr, hsorted⟩ :=
    loadArgsSort_spec (show toSend.length - 1 - 0 < toSend.length + 1 by omega)
      (fun _ => show toSend.length - 1 < toSend.length by omega)
  rw [← hrearr.length_eq] at hsorted
  exact ⟨list, hsort, hsorted.pairwise⟩

end MeDiE.Server
