import Mathlib.Tactic

/-!
# Bubble sort with early exit, by decreasing key

`bubblePass key i` is the inner loop `for (j = 0; j < i; j++)`: it compares the
neighbours at `j` and `j + 1` and swaps them when the left key is smaller.
`bubbleLoop key size` runs `i` from `size - 1` down to `0` and returns after the
first pass without a swap.  Nothing here depends on what the keys measure.
-/

namespace MeDiE.Verified.BubbleSort

variable {α κ : Type} [LinearOrder κ]

/-- One pass over the first `i + 1` elements, and whether it swapped. -/
def bubblePass (key : α → κ) : Nat → List α → List α × Bool
  | 0, l => (l, false)
  | _ + 1, [] => ([], false)
  | _ + 1, [a] => ([a], false)
  | i + 1, a :: b :: l =>
      if key a < key b then
        (b :: (bubblePass key i (a :: l)).1, true)
      else
        (a :: (bubblePass key i (b :: l)).1, (bubblePass key i (b :: l)).2)

/-- The passes `i - 1, …, 0`, cut short by a pass without a swap. -/
def bubbleLoop (key : α → κ) : Nat → List α → List α
  | 0, l => l
  | i + 1, l =>
      if (bubblePass key i l).2 then bubbleLoop key i (bubblePass key i l).1
      else (bubblePass key i l).1

/-- Sort a whole list by decreasing key. -/
def bubbleSort (key : α → κ) (l : List α) : List α :=
  bubbleLoop key l.length l

/-- Neighbours in decreasing key order, for all pairs of positions. -/
abbrev Descending (key : α → κ) (l : List α) : Prop :=
  l.Pairwise (fun a b => key b ≤ key a)

/-! ## One pass -/

theorem bubblePass_perm (key : α → κ) (i : Nat) (l : List α) :
    (bubblePass key i l).1.Perm l := by
  induction i, l using bubblePass.induct key with
  | case1 l => exact List.Perm.refl _
  | case2 i => exact List.Perm.refl _
  | case3 i a => exact List.Perm.refl _
  | case4 i a b l hlt ih =>
      rw [bubblePass, if_pos hlt]
      exact (ih.cons b).trans (List.Perm.swap a b l)
  | case5 i a b l hlt ih =>
      rw [bubblePass, if_neg hlt]
      exact ih.cons a

/-- A pass over a prefix does not touch what follows it. -/
theorem bubblePass_append (key : α → κ) (q : List α) (i : Nat) (p : List α)
    (hp : p.length = i + 1) :
    bubblePass key i (p ++ q) =
      ((bubblePass key i p).1 ++ q, (bubblePass key i p).2) := by
  induction i, p using bubblePass.induct key with
  | case1 p => simp [bubblePass]
  | case2 i => simp at hp
  | case3 i a => simp at hp
  | case4 i a b l hlt ih =>
      have hl : (a :: l).length = i + 1 := by simpa using hp
      simp only [List.cons_append] at ih ⊢
      rw [bubblePass, if_pos hlt, ih hl, bubblePass, if_pos hlt]
      rfl
  | case5 i a b l hlt ih =>
      have hl : (b :: l).length = i + 1 := by simpa using hp
      simp only [List.cons_append] at ih ⊢
      rw [bubblePass, if_neg hlt, ih hl, bubblePass, if_neg hlt]
      rfl

/-- A pass keeps the order of elements with the same key. -/
theorem bubblePass_stable (key : α → κ) {R : α → α → Prop} (i : Nat) (l : List α)
    (h : l.Pairwise (fun a b => key a = key b → R a b)) :
    (bubblePass key i l).1.Pairwise (fun a b => key a = key b → R a b) := by
  induction i, l using bubblePass.induct key with
  | case1 l => exact h
  | case2 i => exact h
  | case3 i a => exact h
  | case4 i a b l hlt ih =>
      rw [bubblePass, if_pos hlt]
      obtain ⟨ha, hb, hl⟩ : _ ∧ _ ∧ _ := by simpa only [List.pairwise_cons] using h
      refine List.pairwise_cons.mpr ⟨?_, ih (List.pairwise_cons.mpr ⟨?_, hl⟩)⟩
      · intro x hx
        rcases List.mem_cons.mp ((bubblePass_perm key i (a :: l)).subset hx) with rfl | hx
        · exact fun heq => absurd heq hlt.ne'
        · exact hb x hx
      · exact fun x hx => ha x (List.mem_cons_of_mem b hx)
  | case5 i a b l hlt ih =>
      rw [bubblePass, if_neg hlt]
      rw [List.pairwise_cons] at h
      refine List.pairwise_cons.mpr ⟨fun x hx => ?_, ih h.2⟩
      exact h.1 x ((bubblePass_perm key i (b :: l)).subset hx)

/-- A pass does not change the elements with a given key, nor their order. -/
theorem bubblePass_filter (key : α → κ) (k : κ) (i : Nat) (l : List α) :
    (bubblePass key i l).1.filter (fun a => key a = k) = l.filter (fun a => key a = k) := by
  induction i, l using bubblePass.induct key with
  | case1 l => rfl
  | case2 i => rfl
  | case3 i a => rfl
  | case4 i a b l hlt ih =>
      rw [bubblePass, if_pos hlt, List.filter_cons, ih]
      by_cases ha : key a = k
      · have hb : key b ≠ k := fun hb => hlt.ne (ha.trans hb.symm)
        simp [ha, hb]
      · simp [ha, List.filter_cons]
  | case5 i a b l hlt ih =>
      rw [bubblePass, if_neg hlt, List.filter_cons, ih, List.filter_cons (x := a)]

/-- A pass over a mapped list is the pass by the keys of the images. -/
theorem bubblePass_map {β : Type} (key : α → κ) (f : β → α) (i : Nat) (l : List β) :
    bubblePass key i (l.map f) = ((bubblePass (fun b => key (f b)) i l).1.map f,
      (bubblePass (fun b => key (f b)) i l).2) := by
  induction i, l using bubblePass.induct (fun b => key (f b)) with
  | case1 l => simp [bubblePass]
  | case2 i => rfl
  | case3 i a => rfl
  | case4 i a b l hlt ih =>
      simp only [List.map_cons] at ih ⊢
      rw [bubblePass, if_pos hlt, bubblePass, if_pos hlt, ih, List.map_cons]
  | case5 i a b l hlt ih =>
      simp only [List.map_cons] at ih ⊢
      rw [bubblePass, if_neg hlt, bubblePass, if_neg hlt, ih, List.map_cons]

/-- A full pass carries an element of least key to the end. -/
theorem bubblePass_last (key : α → κ) (i : Nat) (p : List α)
    (hp : p.length = i + 1) :
    ∃ p' m, (bubblePass key i p).1 = p' ++ [m] ∧ p'.length = i ∧
      ∀ a ∈ p', key m ≤ key a := by
  induction i, p using bubblePass.induct key with
  | case1 p =>
      obtain ⟨a, rfl⟩ := List.length_eq_one_iff.mp hp
      exact ⟨[], a, rfl, rfl, by simp⟩
  | case2 i => simp at hp
  | case3 i a => simp at hp
  | case4 i a b l hlt ih =>
      obtain ⟨p', m, heq, hlen, hmin⟩ := ih (by simpa using hp)
      have hmem : m ∈ a :: l :=
        (bubblePass_perm key i (a :: l)).subset (by rw [heq]; simp)
      have hma : key m ≤ key a := by
        have ha : a ∈ (bubblePass key i (a :: l)).1 :=
          (bubblePass_perm key i (a :: l)).symm.subset (by simp)
        rw [heq] at ha
        rcases List.mem_append.mp ha with ha | ha
        · exact hmin a ha
        · rw [List.mem_singleton.mp ha]
      refine ⟨b :: p', m, ?_, by simp [hlen], ?_⟩
      · rw [bubblePass, if_pos hlt, heq, List.cons_append]
      · intro x hx
        rcases List.mem_cons.mp hx with rfl | hx
        · exact hma.trans hlt.le
        · exact hmin x hx
  | case5 i a b l hlt ih =>
      obtain ⟨p', m, heq, hlen, hmin⟩ := ih (by simpa using hp)
      have hmb : key m ≤ key b := by
        have hb : b ∈ (bubblePass key i (b :: l)).1 :=
          (bubblePass_perm key i (b :: l)).symm.subset (by simp)
        rw [heq] at hb
        rcases List.mem_append.mp hb with hb | hb
        · exact hmin b hb
        · rw [List.mem_singleton.mp hb]
      refine ⟨a :: p', m, ?_, by simp [hlen], ?_⟩
      · rw [bubblePass, if_neg hlt, heq, List.cons_append]
      · intro x hx
        rcases List.mem_cons.mp hx with rfl | hx
        · exact hmb.trans (not_lt.mp hlt)
        · exact hmin x hx

/-- A pass without a swap found its prefix in order and left it alone. -/
theorem bubblePass_unswapped (key : α → κ) (i : Nat) (p : List α)
    (hp : p.length = i + 1) (hswap : (bubblePass key i p).2 = false) :
    (bubblePass key i p).1 = p ∧ Descending key p := by
  induction i, p using bubblePass.induct key with
  | case1 p =>
      obtain ⟨a, rfl⟩ := List.length_eq_one_iff.mp hp
      exact ⟨rfl, List.pairwise_singleton _ _⟩
  | case2 i => simp at hp
  | case3 i a => simp at hp
  | case4 i a b l hlt ih => simp [bubblePass, hlt] at hswap
  | case5 i a b l hlt ih =>
      rw [bubblePass, if_neg hlt] at hswap ⊢
      obtain ⟨heq, hdesc⟩ := ih (by simpa using hp) hswap
      refine ⟨by rw [heq], List.pairwise_cons.mpr ⟨?_, hdesc⟩⟩
      intro x hx
      rcases List.mem_cons.mp hx with rfl | hx
      · exact not_lt.mp hlt
      · exact (List.rel_of_pairwise_cons hdesc hx).trans (not_lt.mp hlt)

/-! ## The whole loop -/

theorem bubbleLoop_perm (key : α → κ) (i : Nat) (l : List α) :
    (bubbleLoop key i l).Perm l := by
  induction i generalizing l with
  | zero => exact List.Perm.refl _
  | succ i ih =>
      rw [bubbleLoop]
      split
      · exact (ih _).trans (bubblePass_perm key i l)
      · exact bubblePass_perm key i l

/-- The loop invariant: the passes still to come work on a prefix `p`, and the
rest `q` is in order and below all of `p`. -/
theorem bubbleLoop_descending (key : α → κ) (i : Nat) (p q : List α)
    (hp : p.length = i) (hq : Descending key q)
    (hpq : ∀ a ∈ p, ∀ b ∈ q, key b ≤ key a) :
    Descending key (bubbleLoop key i (p ++ q)) := by
  induction i generalizing p q with
  | zero =>
      rw [List.length_eq_zero_iff.mp hp]
      exact hq
  | succ i ih =>
      have hperm := bubblePass_perm key i p
      rw [bubbleLoop, bubblePass_append key q i p hp]
      by_cases hswap : (bubblePass key i p).2 = true
      · obtain ⟨p', m, heq, hlen, hmin⟩ := bubblePass_last key i p hp
        have hsub : ∀ x, x ∈ p' ++ [m] → x ∈ p := fun x hx =>
          hperm.subset (by rw [heq]; exact hx)
        rw [if_pos hswap, heq, List.append_assoc]
        refine ih p' ([m] ++ q) hlen ?_ ?_
        · refine List.pairwise_cons.mpr ⟨?_, hq⟩
          exact hpq m (hsub m (by simp))
        · intro a ha b hb
          rcases List.mem_append.mp hb with hb | hb
          · rw [List.mem_singleton.mp hb]
            exact hmin a ha
          · exact hpq a (hsub a (by simp [ha])) b hb
      · obtain ⟨heq, hdesc⟩ :=
          bubblePass_unswapped key i p hp (by simpa using hswap)
        rw [if_neg hswap, heq]
        exact List.pairwise_append.mpr ⟨hdesc, hq, hpq⟩

theorem bubbleSort_perm (key : α → κ) (l : List α) :
    (bubbleSort key l).Perm l :=
  bubbleLoop_perm key l.length l

theorem bubbleSort_descending (key : α → κ) (l : List α) :
    Descending key (bubbleSort key l) := by
  have h := bubbleLoop_descending key l.length l [] rfl List.Pairwise.nil (by simp)
  rwa [List.append_nil] at h

theorem bubbleLoop_stable (key : α → κ) {R : α → α → Prop} (i : Nat) (l : List α)
    (h : l.Pairwise (fun a b => key a = key b → R a b)) :
    (bubbleLoop key i l).Pairwise (fun a b => key a = key b → R a b) := by
  induction i generalizing l with
  | zero => exact h
  | succ i ih =>
      have hpass := bubblePass_stable key i l h
      rw [bubbleLoop]
      split
      · exact ih _ hpass
      · exact hpass

/-- The sort leaves the elements with a given key in the order they had. -/
theorem bubbleSort_filter (key : α → κ) (k : κ) (l : List α) :
    (bubbleSort key l).filter (fun a => key a = k) = l.filter (fun a => key a = k) := by
  have hloop : ∀ i l, (bubbleLoop key i l).filter (fun a => key a = k) =
      l.filter (fun a => key a = k) := by
    intro i
    induction i with
    | zero => exact fun l => rfl
    | succ i ih =>
        intro l
        rw [bubbleLoop]
        split
        · rw [ih, bubblePass_filter]
        · exact bubblePass_filter key k i l
  exact hloop l.length l

theorem bubbleSort_map {β : Type} (key : α → κ) (f : β → α) (l : List β) :
    bubbleSort key (l.map f) = (bubbleSort (fun b => key (f b)) l).map f := by
  have hloop : ∀ i l, bubbleLoop key i (l.map f) =
      (bubbleLoop (fun b => key (f b)) i l).map f := by
    intro i
    induction i with
    | zero => exact fun l => rfl
    | succ i ih =>
        intro l
        rw [bubbleLoop, bubbleLoop, bubblePass_map]
        split
        · exact ih _
        · rfl
  rw [bubbleSort, bubbleSort, List.length_map]
  exact hloop l.length l

/-- The sort is stable: where keys are equal the old order decides. -/
theorem bubbleSort_stable (key : α → κ) (R : α → α → Prop) (l : List α)
    (h : l.Pairwise (fun a b => key a = key b → R a b)) :
    (bubbleSort key l).Pairwise
      (fun a b => key b < key a ∨ key a = key b ∧ R a b) := by
  have hstable := bubbleLoop_stable key l.length l h
  refine (bubbleSort_descending key l).imp₂ (fun a b hle hR => ?_) hstable
  rcases lt_or_eq_of_le hle with hlt | heq
  · exact Or.inl hlt
  · exact Or.inr ⟨heq.symm, hR heq.symm⟩

@[simp] theorem mem_bubbleSort (key : α → κ) (l : List α) (a : α) :
    a ∈ bubbleSort key l ↔ a ∈ l :=
  (bubbleSort_perm key l).mem_iff

@[simp] theorem length_bubbleSort (key : α → κ) (l : List α) :
    (bubbleSort key l).length = l.length :=
  (bubbleSort_perm key l).length_eq

end MeDiE.Verified.BubbleSort
