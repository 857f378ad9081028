import MeDiE.Verified.GreedyTies

/-!
# Greedy selection with a closing element

When the selection is over, the last element that it passed over is added after
all if the total then ends up nearer to the room than it was without it.  This
file counts how many copies of a value are handed out in this way from a list in
decreasing order.
-/

namespace MeDiE.Verified.Greedy

/-- The last element that the selection passes over. -/
def lastLeft : Nat → Option Nat → List Nat → Option Nat
  | _, last, [] => last
  | room, last, v :: l =>
      if v ≤ room then
        if v = 0 then last else lastLeft (room - v) last l
      else lastLeft room (some v) l

/-- The elements taken, and the closing one. -/
def greedyClose (room : Nat) (l : List Nat) : List Nat :=
  match lastLeft room none l with
  | some v =>
      if v < 2 * (room - total id (greedyTake id room l)) then greedyTake id room l ++ [v]
      else greedyTake id room l
  | none => greedyTake id room l

/-- How many of the values `v` are handed out: those that fit in the room left by
the larger values, and one more if it closes.  It closes when all smaller values
fit as well and it overshoots by less than what is then missing. -/
def handedOut (room : Nat) (l : List Nat) (v : Nat) : Nat :=
  let taken := min (l.count v) (roomFor room l v / v)
  let missing := roomFor room l v - taken * v - (l.filter (· < v)).sum
  if taken < l.count v ∧ v < 2 * missing then taken + 1 else taken

/-! ## The element passed over last -/

theorem lastLeft_mem {room : Nat} {last : Option Nat} {l : List Nat} {w : Nat}
    (hlast : lastLeft room last l = some w) : last = some w ∨ w ∈ l := by
  induction l generalizing room last with
  | nil => exact Or.inl hlast
  | cons a l ih =>
      rw [lastLeft] at hlast
      split at hlast
      · split at hlast
        · exact Or.inl hlast
        · exact (ih hlast).imp_right (List.mem_cons_of_mem a)
      · rcases ih hlast with heq | hmem
        · cases heq
          exact Or.inr List.mem_cons_self
        · exact Or.inr (List.mem_cons_of_mem a hmem)

/-- Without zeros in front the selection goes on with the room that is left. -/
theorem lastLeft_append (room : Nat) (last : Option Nat) (l l' : List Nat)
    (hne : ∀ a ∈ l, a ≠ 0) :
    lastLeft room last (l ++ l') =
      lastLeft (room - total id (greedyTake id room l)) (lastLeft room last l) l' := by
  induction l generalizing room last with
  | nil => rw [List.nil_append, lastLeft, greedyTake, total_nil, Nat.sub_zero]
  | cons a l ih =>
      have hne' := fun x hx => hne x (List.mem_cons_of_mem a hx)
      have hzero : a ≠ 0 := hne a List.mem_cons_self
      rw [List.cons_append, lastLeft, lastLeft, greedyTake, id_eq]
      by_cases hfit : a ≤ room
      · rw [if_pos hfit, if_pos hfit, if_pos hfit, if_neg hzero, if_neg hzero,
          if_neg hzero, total_cons, id_eq, ← Nat.sub_sub, ih _ _ hne']
      · rw [if_neg hfit, if_neg hfit, if_neg hfit, ih _ _ hne']

/-- One of a group of equal values is passed over unless all of them fit. -/
theorem lastLeft_replicate (room : Nat) (last : Option Nat) (c v : Nat) (hv : v ≠ 0) :
    lastLeft room last (List.replicate c v) = if room / v < c then some v else last := by
  induction c generalizing room last with
  | zero => rfl
  | succ c ih =>
      rw [List.replicate_succ, lastLeft]
      by_cases hfit : v ≤ room
      · have hdiv : room / v = (room - v) / v + 1 :=
          Nat.div_eq_sub_div (Nat.pos_of_ne_zero hv) hfit
        rw [if_pos hfit, if_neg hv, ih, hdiv]
        simp only [Nat.add_lt_add_iff_right]
      · rw [if_neg hfit, ih, Nat.div_eq_of_lt (by omega), if_pos (Nat.succ_pos c), ite_self]

/-- Values that all fit are all taken. -/
theorem greedyTake_eq_self (room : Nat) (l : List Nat) (hne : ∀ a ∈ l, a ≠ 0)
    (hfit : l.sum ≤ room) : greedyTake id room l = l := by
  induction l generalizing room with
  | nil => rfl
  | cons a l ih =>
      rw [List.sum_cons] at hfit
      rw [greedyTake, id_eq, if_pos (by omega), if_neg (hne a List.mem_cons_self),
        ih _ (fun x hx => hne x (List.mem_cons_of_mem a hx)) (by omega)]

/-- Where not all values fit, one of them is passed over. -/
theorem lastLeft_cases (room : Nat) (last : Option Nat) (l : List Nat)
    (hne : ∀ a ∈ l, a ≠ 0) :
    (l.sum ≤ room ∧ lastLeft room last l = last) ∨
      (room < l.sum ∧ ∃ w ∈ l, lastLeft room last l = some w) := by
  induction l generalizing room last with
  | nil => exact Or.inl ⟨by simp, rfl⟩
  | cons a l ih =>
      have hne' := fun x hx => hne x (List.mem_cons_of_mem a hx)
      rw [lastLeft, List.sum_cons]
      by_cases hfit : a ≤ room
      · rw [if_pos hfit, if_neg (hne a List.mem_cons_self)]
        rcases ih (room - a) last hne' with ⟨hle, heq⟩ | ⟨hlt, w, hw, heq⟩
        · exact Or.inl ⟨by omega, heq⟩
        · exact Or.inr ⟨by omega, w, List.mem_cons_of_mem a hw, heq⟩
      · rw [if_neg hfit]
        refine Or.inr ⟨by omega, ?_⟩
        rcases ih room (some a) hne' with ⟨_, heq⟩ | ⟨_, w, hw, heq⟩
        · exact ⟨a, List.mem_cons_self, heq⟩
        · exact ⟨w, List.mem_cons_of_mem a hw, heq⟩

/-! ## Copies of one value -/

theorem filter_gt_ne_zero (v : Nat) (l : List Nat) : ∀ a ∈ l.filter (v < ·), a ≠ 0 := by
  intro a ha
  have hlt : v < a := by simpa using (List.mem_filter.mp ha).2
  omega

/-- What is taken in all: the larger values, copies of `v`, and smaller values. -/
theorem total_greedyTake_split (room : Nat) (l : List Nat) (v : Nat) (hv : v ≠ 0)
    (hdesc : l.Pairwise (fun a b => b ≤ a)) :
    room - total id (greedyTake id room l) =
      roomFor room l v - min (l.count v) (roomFor room l v / v) * v -
        total id (greedyTake id
          (roomFor room l v - min (l.count v) (roomFor room l v / v) * v)
          (l.filter (· < v))) := by
  have hequal : ∀ a ∈ List.replicate (l.count v) v, id a ≠ 0 := fun a ha => by
    rw [List.eq_of_mem_replicate ha]
    exact hv
  have htotal : ∀ k, total id (List.replicate k v) = k * v := fun k => by
    simp [total]
  conv_lhs => rw [descending_split l v hdesc]
  rw [greedyTake_append id _ _ _ (filter_gt_ne_zero v l),
    greedyTake_append id _ _ _ hequal, greedyTake_replicate _ _ _ hv, total_append,
    total_append, htotal, ← Nat.sub_sub, ← Nat.sub_sub]
  rfl

/-- Whether a copy of `v` is passed over last. -/
theorem lastLeft_eq_iff (room : Nat) (l : List Nat) (v : Nat) (hv : v ≠ 0)
    (hne : ∀ a ∈ l, a ≠ 0) (hdesc : l.Pairwise (fun a b => b ≤ a)) :
    lastLeft room none l = some v ↔
      roomFor room l v / v < l.count v ∧ (l.filter (· < v)).sum ≤
        roomFor room l v - min (l.count v) (roomFor room l v / v) * v := by
  have hequal : ∀ a ∈ List.replicate (l.count v) v, a ≠ 0 := fun a ha => by
    rw [List.eq_of_mem_replicate ha]
    exact hv
  have htotal : ∀ k, total id (List.replicate k v) = k * v := fun k => by
    simp [total]
  conv_lhs => rw [descending_split l v hdesc]
  rw [lastLeft_append _ _ _ _ (filter_gt_ne_zero v l), lastLeft_append _ _ _ _ hequal,
    lastLeft_replicate _ _ _ _ hv, greedyTake_replicate _ _ _ hv, htotal]
  change lastLeft (roomFor room l v - min (l.count v) (roomFor room l v / v) * v)
    (if roomFor room l v / v < l.count v then some v
      else lastLeft room none (l.filter (v < ·))) (l.filter (· < v)) = some v ↔ _
  rcases lastLeft_cases (roomFor room l v - min (l.count v) (roomFor room l v / v) * v)
    (if roomFor room l v / v < l.count v then some v
      else lastLeft room none (l.filter (v < ·))) (l.filter (· < v))
    (fun a ha => hne a (List.mem_of_mem_filter ha)) with ⟨hle, heq⟩ | ⟨hlt, w, hw, heq⟩
  · rw [heq]
    split
    · rename_i hmore
      simp only [true_iff]
      exact ⟨hmore, hle⟩
    · rename_i hmore
      refine iff_of_false (fun hlast => ?_) (fun h => hmore h.1)
      rcases lastLeft_mem hlast with h | hmem
      · cases h
      · simpa using (List.mem_filter.mp hmem).2
  · refine iff_of_false (fun hlast => ?_) (fun h => absurd h.2 (by omega))
    have hwv : w = v := Option.some.inj (heq.symm.trans hlast)
    have hlt' : w < v := by simpa using (List.mem_filter.mp hw).2
    omega

/-- The copies of `v` among the elements taken and the closing one. -/
theorem count_greedyClose (room : Nat) (l : List Nat) (v : Nat) (hv : v ≠ 0)
    (hne : ∀ a ∈ l, a ≠ 0) (hdesc : l.Pairwise (fun a b => b ≤ a)) :
    (greedyClose room l).count v = handedOut room l v := by
  have hcount := count_greedyTake room l v hv hdesc
  have hiff := lastLeft_eq_iff room l v hv hne hdesc
  have hroom := total_greedyTake_split room l v hv hdesc
  have hself := greedyTake_eq_self
    (roomFor room l v - min (l.count v) (roomFor room l v / v) * v)
    (l.filter (· < v)) (fun a ha => hne a (List.mem_of_mem_filter ha))
  unfold greedyClose handedOut
  dsimp only
  by_cases hlast : lastLeft room none l = some v
  · obtain ⟨hmore, hfit⟩ := hiff.mp hlast
    rw [hself hfit] at hroom
    have htotal : total id (l.filter (· < v)) = (l.filter (· < v)).sum := by
      simp [total]
    rw [hlast]
    dsimp only
    rw [hroom, htotal]
    have hless : min (l.count v) (roomFor room l v / v) < l.count v := by omega
    by_cases hclose : v < 2 * (roomFor room l v -
        min (l.count v) (roomFor room l v / v) * v - (l.filter (· < v)).sum)
    · rw [if_pos hclose, if_pos ⟨hless, hclose⟩, List.count_append, hcount,
        List.count_singleton_self]
    · rw [if_neg hclose, if_neg (fun h => hclose h.2), hcount]
  · have hnot : ¬ (min (l.count v) (roomFor room l v / v) < l.count v ∧
        v < 2 * (roomFor room l v - min (l.count v) (roomFor room l v / v) * v -
          (l.filter (· < v)).sum)) := by
      rintro ⟨hless, hclose⟩
      exact hlast (hiff.mpr ⟨by omega, by omega⟩)
    rw [if_neg hnot]
    split
    · rename_i w hw
      have hwv : w ≠ v := fun h => hlast (h ▸ hw)
      split
      · rw [List.count_append, hcount, List.count_singleton, if_neg (by simpa using hwv),
          Nat.add_zero]
      · exact hcount
    · exact hcount

/-- No more copies are handed out than there are. -/
theorem handedOut_le_count (room : Nat) (l : List Nat) (v : Nat) :
    handedOut room l v ≤ l.count v := by
  unfold handedOut
  dsimp only
  split
  · omega
  · omega

theorem mem_of_mem_greedyClose {room : Nat} {l : List Nat} {v : Nat}
    (hv : v ∈ greedyClose room l) : v ∈ l := by
  have hsub := (greedyTake_sublist id room l).subset
  unfold greedyClose at hv
  split at hv
  · rename_i w hw
    split at hv
    · rcases List.mem_append.mp hv with hmem | hmem
      · exact hsub hmem
      · rw [List.mem_singleton.mp hmem]
        exact (lastLeft_mem hw).resolve_left (by simp)
    · exact hsub hv
  · exact hsub hv

/-- What is handed out is part of the list, copies counted. -/
theorem greedyClose_subperm (room : Nat) (l : List Nat) (hne : ∀ a ∈ l, a ≠ 0)
    (hdesc : l.Pairwise (fun a b => b ≤ a)) : (greedyClose room l).Subperm l := by
  refine List.subperm_ext_iff.mpr fun v hv => ?_
  rw [count_greedyClose room l v (hne v (mem_of_mem_greedyClose hv)) hne hdesc]
  exact handedOut_le_count room l v

/-! ## How near the selection comes

The closing element may be chosen by another measure than the distance to the room: here
the distance to a point `goal` below it.  What was passed over is larger than what is
missing, so adding one such element overshoots, and adding a second one only leads away.
-/

/-- The elements taken, and the last one passed over if it leads nearer to `room - goal`. -/
def closeTowards (goal room : Nat) (l : List Nat) : List Nat :=
  match lastLeft room none l with
  | some w =>
      if w + 2 * goal < 2 * (room - total id (greedyTake id room l))
      then greedyTake id room l ++ [w]
      else greedyTake id room l
  | none => greedyTake id room l

/-- Not all copies of `v` fit in the room left by the larger values, but all smaller values
fit in what the copies of `v` leave. -/
def LeftLast (room : Nat) (l : List Nat) (v : Nat) : Prop :=
  roomFor room l v / v < l.count v ∧ (l.filter (· < v)).sum ≤ roomFor room l v % v

/-- What is missing in the end when `v` is passed over last. -/
def missingAfter (room : Nat) (l : List Nat) (v : Nat) : Nat :=
  roomFor room l v % v - (l.filter (· < v)).sum

instance (room : Nat) (l : List Nat) (v : Nat) : Decidable (LeftLast room l v) :=
  inferInstanceAs (Decidable (_ ∧ _))

theorem lastLeft_pos {room : Nat} {last : Option Nat} {l : List Nat} {w : Nat}
    (hlast : lastLeft room last l = some w) : last = some w ∨ 0 < w := by
  induction l generalizing room last with
  | nil => exact Or.inl hlast
  | cons a l ih =>
      rw [lastLeft] at hlast
      split at hlast
      · split at hlast
        · exact Or.inl hlast
        · exact ih hlast
      · rename_i hfit
        rcases ih hlast with heq | hpos
        · cases heq
          exact Or.inr (by omega)
        · exact Or.inr hpos

/-- What is passed over last is not among what is taken. -/
theorem lastLeft_subperm {room : Nat} {last : Option Nat} {l : List Nat} {w : Nat}
    (hlast : lastLeft room last l = some w) :
    last = some w ∨ (w :: greedyTake id room l).Subperm l := by
  induction l generalizing room last with
  | nil => exact Or.inl hlast
  | cons a l ih =>
      rw [lastLeft] at hlast
      rw [greedyTake, id_eq]
      split at hlast
      · rename_i hfit
        split at hlast
        · exact Or.inl hlast
        · rename_i hzero
          rw [if_pos hfit, if_neg hzero]
          refine (ih hlast).imp_right fun hsub => ?_
          exact (List.Perm.swap a w _).subperm.trans ((List.subperm_cons a).mpr hsub)
      · rename_i hfit
        rw [if_neg hfit]
        rcases ih hlast with heq | hsub
        · cases heq
          exact Or.inr ((List.subperm_cons w).mpr (greedyTake_sublist id room l).subperm)
        · exact Or.inr (hsub.trans (List.sublist_cons_self a l).subperm)

section Descending

variable {room : Nat} {l : List Nat} {v : Nat}

/-- A copy of `v` is left over when not all of them fit. -/
theorem left_iff (hv : v ≠ 0) (hdesc : l.Pairwise (fun a b => b ≤ a)) :
    (greedyTake id room l).count v < l.count v ↔ roomFor room l v / v < l.count v := by
  rw [count_greedyTake room l v hv hdesc]
  omega

theorem roomFor_sub_min (hleft : roomFor room l v / v < l.count v) :
    roomFor room l v - min (l.count v) (roomFor room l v / v) * v = roomFor room l v % v := by
  have hdiv := Nat.div_add_mod (roomFor room l v) v
  rw [Nat.min_eq_right hleft.le, Nat.mul_comm]
  omega

/-- What is left over is larger than what is missing. -/
theorem missing_lt_of_left (hv : v ≠ 0) (hdesc : l.Pairwise (fun a b => b ≤ a))
    (hleft : (greedyTake id room l).count v < l.count v) :
    room - total id (greedyTake id room l) < v := by
  have hless := (left_iff hv hdesc).mp hleft
  rw [total_greedyTake_split room l v hv hdesc, roomFor_sub_min hless]
  have hmod := Nat.mod_lt (roomFor room l v) (Nat.pos_of_ne_zero hv)
  omega

/-- What is passed over last is the least of what is left over. -/
theorem exists_lastLeft_le (hne : ∀ a ∈ l, a ≠ 0) (hdesc : l.Pairwise (fun a b => b ≤ a))
    (hleft : (greedyTake id room l).count v < l.count v) :
    ∃ w ≤ v, lastLeft room none l = some w := by
  have hv : v ≠ 0 := hne v (List.count_pos_iff.mp (by omega))
  have hless := (left_iff hv hdesc).mp hleft
  have hequal : ∀ a ∈ List.replicate (l.count v) v, a ≠ 0 := fun a ha => by
    rw [List.eq_of_mem_replicate ha]
    exact hv
  rw [descending_split l v hdesc]
  rw [lastLeft_append _ _ _ _ (filter_gt_ne_zero v l), lastLeft_append _ _ _ _ hequal,
    lastLeft_replicate _ _ _ _ hv]
  change ∃ w ≤ v, lastLeft _ (if roomFor room l v / v < l.count v then some v else _) _ = some w
  rw [if_pos hless]
  rcases lastLeft_cases _ (some v) (l.filter (· < v))
    (fun a ha => hne a (List.mem_of_mem_filter ha)) with ⟨-, heq⟩ | ⟨-, w, hw, heq⟩
  · exact ⟨v, le_refl v, heq⟩
  · have hlt : w < v := by simpa using (List.mem_filter.mp hw).2
    exact ⟨w, hlt.le, heq⟩

theorem lastLeft_iff (hne : ∀ a ∈ l, a ≠ 0) (hdesc : l.Pairwise (fun a b => b ≤ a))
    (hv : v ≠ 0) : lastLeft room none l = some v ↔ LeftLast room l v := by
  rw [lastLeft_eq_iff room l v hv hne hdesc, LeftLast]
  refine and_congr_right fun hless => ?_
  rw [roomFor_sub_min hless]

theorem missing_eq (hne : ∀ a ∈ l, a ≠ 0) (hdesc : l.Pairwise (fun a b => b ≤ a)) (hv : v ≠ 0)
    (hlast : LeftLast room l v) :
    room - total id (greedyTake id room l) = missingAfter room l v := by
  rw [total_greedyTake_split room l v hv hdesc, roomFor_sub_min hlast.1,
    greedyTake_eq_self _ _ (fun a ha => hne a (List.mem_of_mem_filter ha)) hlast.2]
  simp [missingAfter, total]

theorem closeTowards_subperm (goal room : Nat) (l : List Nat) :
    (closeTowards goal room l).Subperm l := by
  have hsub := (greedyTake_sublist id room l).subperm
  unfold closeTowards
  split
  · rename_i w hw
    split
    · have hcons := (lastLeft_subperm hw).resolve_left (by simp)
      exact (List.perm_append_singleton w _).subperm.trans hcons
    · exact hsub
  · exact hsub

/-- An element that is left over would bring the total nearer to the room. -/
def Improves (room : Nat) (l set : List Nat) (v : Nat) : Prop :=
  set.count v < l.count v ∧
    |(set.sum : Int) + v - room| < |(set.sum : Int) - room|

/-- **Ending near the room**: nothing that is left over would bring the total nearer exactly
when the value passed over last, if there is one, is at least twice what is missing, or
leads nearer to `room - goal`. -/
theorem closeTowards_near_iff (goal : Nat) (hne : ∀ a ∈ l, a ≠ 0)
    (hdesc : l.Pairwise (fun a b => b ≤ a)) :
    (∀ v, ¬ Improves room l (closeTowards goal room l) v) ↔
      ∀ v ∈ l, LeftLast room l v →
        2 * missingAfter room l v ≤ v ∨ v + 2 * goal < 2 * missingAfter room l v := by
  have hle := total_greedyTake_le id room l
  have hsum : (greedyTake id room l).sum = total id (greedyTake id room l) := by simp [total]
  constructor
  · intro hnear v hv hlast
    have hv0 := hne v hv
    by_contra hfar
    rw [not_or] at hfar
    have hmissing := missing_eq hne hdesc hv0 hlast
    have hset : closeTowards goal room l = greedyTake id room l := by
      rw [closeTowards, (lastLeft_iff hne hdesc hv0).mpr hlast]
      exact if_neg (by omega)
    refine hnear v ⟨?_, ?_⟩
    · rw [hset]
      exact (left_iff hv0 hdesc).mpr hlast.1
    · rw [hset, hsum, abs_lt, abs_of_nonpos (by omega)]
      constructor <;> omega
  · rintro hnear v ⟨hleft, hcloser⟩
    have hv0 : v ≠ 0 := hne v (List.count_pos_iff.mp (by omega))
    have hleft' : (greedyTake id room l).count v < l.count v := by
      refine lt_of_le_of_lt ?_ hleft
      unfold closeTowards
      split
      · split
        · exact (List.sublist_append_left _ _).count_le v
        · exact le_refl _
      · exact le_refl _
    have hmissing := missing_lt_of_left hv0 hdesc hleft'
    obtain ⟨w, hwv, hw⟩ := exists_lastLeft_le hne hdesc hleft'
    have hw0 : w ≠ 0 := by
      have hpos := (lastLeft_pos hw).resolve_left (by simp)
      omega
    have hwlast := (lastLeft_iff hne hdesc hw0).mp hw
    have hwmem : w ∈ l := (lastLeft_mem hw).resolve_left (by simp)
    have hwmissing := missing_eq hne hdesc hw0 hwlast
    have hwleft := missing_lt_of_left hw0 hdesc ((left_iff hw0 hdesc).mpr hwlast.1)
    rw [closeTowards, hw] at hcloser
    by_cases hclose : w + 2 * goal < 2 * (room - total id (greedyTake id room l))
    · simp only [if_pos hclose, List.sum_append, List.sum_singleton, hsum] at hcloser
      rw [abs_of_nonneg (by omega), abs_of_nonneg (by omega)] at hcloser
      omega
    · simp only [if_neg hclose, hsum] at hcloser
      rw [abs_of_nonneg (by omega), abs_of_nonpos (by omega)] at hcloser
      rcases hnear w hwmem hwlast with h | h
      · omega
      · omega

end Descending

end MeDiE.Verified.Greedy
