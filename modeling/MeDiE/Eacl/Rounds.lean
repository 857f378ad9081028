import MeDiE.Eacl.Calls

/-!
# Access lists over rounds

The signal handler calls `eacl_calculate_sai` and then `eacl_reset_access`; the two
calls end a round.  Accesses and resets of entries come in between.

`record` keeps for one entry what the accesses of a run are, in mathematical integers:
the accesses of the unfinished round, and those of each round before it, as far as they
came after the last reset of the entry.  The index of an entry is a function of its
record for `eacl_windowed.c`, and bounded by it for `eacl_indedh.c`.
-/

namespace MeDiE.EaclRounds

open MeDiE.Eacl MeDiE.EaclCalls

variable {n : Nat} {A : Type} [Eacl A n]

/-- What happens to an access list. -/
inductive Event (n : Nat)
  | incrAccess (index : Fin n)
  | resetAllEntry (index : Fin n)
  | round
  deriving DecidableEq

/-- The calls it is made of. -/
def Event.calls : Event n → List (Call n)
  | .incrAccess index => [.incrAccess index]
  | .resetAllEntry index => [.resetAllEntry index]
  | .round => [.calculateSai, .resetAccess]

/-- The list after `eacl_init` and some events. -/
def play (A : Type) [Eacl A n] (events : List (Event n)) : A :=
  callAll A (events.flatMap Event.calls)

/-- The accesses to an entry since its last reset. -/
structure Record where
  /-- Those since the last round. -/
  count : Nat
  /-- Those of each completed round, newest first. -/
  rounds : List Nat

/-- An event in the record of entry `e`. -/
def Record.after (e : Fin n) (r : Record) : Event n → Record
  | .incrAccess index => if index = e then { r with count := r.count + 1 } else r
  | .resetAllEntry index => if index = e then { count := 0, rounds := [] } else r
  | .round => { count := 0, rounds := r.count :: r.rounds }

/-- The record of entry `e` after a run. -/
def record (e : Fin n) (events : List (Event n)) : Record :=
  events.foldl (Record.after e) { count := 0, rounds := [] }

theorem record_concat (e : Fin n) (events : List (Event n)) (ev : Event n) :
    record e (events ++ [ev]) = (record e events).after e ev := by
  rw [record, List.foldl_concat]
  rfl

theorem play_concat (events : List (Event n)) (ev : Event n) :
    play A (events ++ [ev]) = ev.calls.foldl call (play A events) := by
  rw [play, List.flatMap_append, callAll, List.foldl_append, List.flatMap_singleton]
  rfl

theorem play_incrAccess (events : List (Event n)) (index : Fin n) :
    play A (events ++ [.incrAccess index]) = Eacl.incrAccess (play A events) index :=
  play_concat events _

theorem play_resetAllEntry (events : List (Event n)) (index : Fin n) :
    play A (events ++ [.resetAllEntry index]) = Eacl.resetAllEntry (play A events) index :=
  play_concat events _

theorem play_round (events : List (Event n)) :
    play A (events ++ [.round]) = Eacl.resetAccess (Eacl.calculateSai (play A events)) :=
  play_concat events _

/-- What a list and the record of an entry have to do with each other, when every event
keeps it. -/
theorem play_record_rule {e : Fin n} {P : A → Record → Prop}
    (hinit : P (play A []) { count := 0, rounds := [] })
    (haccess : ∀ self r, P self r →
      P (Eacl.incrAccess self e) { r with count := r.count + 1 })
    (hreset : ∀ self r, P self r →
      P (Eacl.resetAllEntry self e) { count := 0, rounds := [] })
    (hother : ∀ self r index, index ≠ e → P self r →
      P (Eacl.incrAccess self index) r ∧ P (Eacl.resetAllEntry self index) r)
    (hround : ∀ self r, P self r →
      P (Eacl.resetAccess (Eacl.calculateSai self)) { count := 0, rounds := r.count :: r.rounds })
    (events : List (Event n)) : P (play A events) (record e events) := by
  induction events using List.reverseRecOn with
  | nil => exact hinit
  | append_singleton events ev ih =>
      rw [record_concat]
      cases ev with
      | incrAccess index =>
          rw [play_incrAccess]
          by_cases he : index = e
          · subst he
            rw [Record.after, if_pos rfl]
            exact haccess _ _ ih
          · rw [Record.after, if_neg he]
            exact (hother _ _ index he ih).1
      | resetAllEntry index =>
          rw [play_resetAllEntry]
          by_cases he : index = e
          · subst he
            rw [Record.after, if_pos rfl]
            exact hreset _ _ ih
          · rw [Record.after, if_neg he]
            exact (hother _ _ index he ih).2
      | round =>
          rw [play_round]
          exact hround _ _ ih

/-! ## `eacl_indedh.c`: no index exceeds the traffic -/

/-- The event is a counted access. -/
def Event.isAccess : Event n → Bool
  | .incrAccess _ => true
  | _ => false

/-- No more than `bound` accesses are made without a round in between. -/
def RoundsWithin (bound : Nat) (events : List (Event n)) : Prop :=
  ∀ between, between <:+: events → .round ∉ between →
    between.countP Event.isAccess ≤ bound

/-- The largest number of accesses in a round. -/
def Record.largest (r : Record) : Nat := (r.count :: r.rounds).foldr max 0

theorem RoundsWithin.of_concat {bound : Nat} {events : List (Event n)} {ev : Event n}
    (h : RoundsWithin bound (events ++ [ev])) : RoundsWithin bound events := by
  intro between hbetween
  exact h between (hbetween.trans (List.prefix_append events [ev]).isInfix)

theorem roundsWithin_of_countP_le {bound : Nat} {events : List (Event n)}
    (h : events.countP Event.isAccess ≤ bound) : RoundsWithin bound events := by
  intro between hbetween _
  exact (hbetween.sublist.countP_le).trans h

section Indedh

open EaclIndedh

/-- The counts of the list are accesses that were made since the last round. -/
theorem exists_between (events : List (Event n)) :
    ∃ between, between <:+ events ∧ .round ∉ between ∧
      ∑ i, (play (EaclData n) events).accessCount i ≤ between.countP Event.isAccess := by
  induction events using List.reverseRecOn with
  | nil =>
      have hsum : ∑ i, (play (EaclData n) []).accessCount i = 0 := Finset.sum_const_zero
      exact ⟨[], List.nil_suffix, List.not_mem_nil, hsum.le⟩
  | append_singleton events ev ih =>
      obtain ⟨between, hsuffix, hround, hsum⟩ := ih
      have hlonger : between ++ [ev] <:+ events ++ [ev] := by
        obtain ⟨front, rfl⟩ := hsuffix
        exact ⟨front, by rw [List.append_assoc]⟩
      cases ev with
      | incrAccess index =>
          refine ⟨between ++ [.incrAccess index], hlonger, by simp [hround], ?_⟩
          rw [play_incrAccess, List.countP_append, List.countP_singleton]
          have hupdate := sum_update_add (play (EaclData n) events).accessCount index
            (((play (EaclData n) events).accessCount index + 1) % 2 ^ 32)
          have hmod := Nat.mod_le ((play (EaclData n) events).accessCount index + 1) (2 ^ 32)
          show ∑ i, Function.update (play (EaclData n) events).accessCount index _ i ≤
            between.countP Event.isAccess + 1
          omega
      | resetAllEntry index =>
          refine ⟨between ++ [.resetAllEntry index], hlonger, by simp [hround], ?_⟩
          rw [play_resetAllEntry, List.countP_append, List.countP_singleton]
          have hupdate := sum_update_add (play (EaclData n) events).accessCount index 0
          show ∑ i, Function.update (play (EaclData n) events).accessCount index _ i ≤
            between.countP Event.isAccess + 0
          omega
      | round =>
          have hzero : ∑ i, (play (EaclData n) (events ++ [.round])).accessCount i = 0 := by
            rw [play_round]
            exact Finset.sum_const_zero
          exact ⟨[], List.nil_suffix, List.not_mem_nil, hzero.le⟩

theorem sum_accessCount_le {bound : Nat} {events : List (Event n)}
    (h : RoundsWithin bound events) :
    ∑ i, (play (EaclData n) events).accessCount i ≤ bound := by
  obtain ⟨between, hsuffix, hround, hsum⟩ := exists_between events
  exact hsum.trans (h between hsuffix.isInfix hround)

/-- Halving rounds down, so the new sum is at most the mean of the old sum and the
accesses. -/
theorem sum_sai_calculateSai_le (self : EaclData n) :
    2 * ∑ i, (eaclCalculateSai self).sai i ≤
      (∑ i, self.sai i) + ∑ i, self.accessCount i := by
  rw [Finset.mul_sum, ← Finset.sum_add_distrib]
  apply Finset.sum_le_sum
  intro i _
  exact Nat.mul_div_le (self.sai i + self.accessCount i) 2

theorem sum_sai_le {bound : Nat} {events : List (Event n)} (h : RoundsWithin bound events) :
    ∑ i, (play (EaclData n) events).sai i ≤ bound := by
  induction events using List.reverseRecOn with
  | nil =>
      have hsum : ∑ i, (play (EaclData n) []).sai i = 0 := Finset.sum_const_zero
      omega
  | append_singleton events ev ih =>
      have hsai := ih h.of_concat
      cases ev with
      | incrAccess index =>
          rw [play_incrAccess]
          exact hsai
      | resetAllEntry index =>
          rw [play_resetAllEntry]
          have hupdate := sum_update_add (play (EaclData n) events).sai index 0
          show ∑ i, Function.update (play (EaclData n) events).sai index 0 i ≤ bound
          omega
      | round =>
          rw [play_round]
          have hcount := sum_accessCount_le h.of_concat
          have hhalf := sum_sai_calculateSai_le (play (EaclData n) events)
          show ∑ i, (eaclCalculateSai (play (EaclData n) events)).sai i ≤ bound
          omega

/-- Neither the count of an entry nor its index exceeds what its record shows. -/
theorem count_le_record_and_sai_le (e : Fin n) (events : List (Event n)) :
    (play (EaclData n) events).accessCount e ≤ (record e events).count ∧
      (play (EaclData n) events).sai e ≤ (record e events).rounds.foldr max 0 := by
  refine play_record_rule (A := EaclData n)
    (P := fun self r => self.accessCount e ≤ r.count ∧ self.sai e ≤ r.rounds.foldr max 0)
    ⟨Nat.le_refl 0, Nat.le_refl 0⟩ ?_ ?_ ?_ ?_ events
  · rintro self r ⟨hcount, hsai⟩
    refine ⟨?_, hsai⟩
    show Function.update self.accessCount e ((self.accessCount e + 1) % 2 ^ 32) e ≤ _
    rw [Function.update_self]
    exact (Nat.mod_le _ _).trans (Nat.succ_le_succ hcount)
  · rintro self r -
    show Function.update self.accessCount e 0 e ≤ 0 ∧ Function.update self.sai e 0 e ≤ 0
    rw [Function.update_self, Function.update_self]
    exact ⟨Nat.le_refl 0, Nat.le_refl 0⟩
  · rintro self r index he ⟨hcount, hsai⟩
    have hne := Ne.symm he
    constructor
    · refine ⟨?_, hsai⟩
      show Function.update self.accessCount index _ e ≤ _
      rwa [Function.update_of_ne hne]
    · show Function.update self.accessCount index 0 e ≤ _ ∧
        Function.update self.sai index 0 e ≤ _
      rw [Function.update_of_ne hne, Function.update_of_ne hne]
      exact ⟨hcount, hsai⟩
  · rintro self r ⟨hcount, hsai⟩
    refine ⟨Nat.zero_le _, ?_⟩
    show (self.sai e + self.accessCount e) / 2 ≤ max r.count (r.rounds.foldr max 0)
    omega

/-- Let there be at most `bound < 2 ^ 32` accesses in each round.  After every computation
the indices sum up to at most `bound`, `load_lvl` is that sum, and no index exceeds the
largest count that its entry has had in a round since its reset. -/
theorem load_within_traffic {bound : Nat} (hbound : bound < 2 ^ 32) (events : List (Event n))
    (hevents : RoundsWithin bound events) :
    ∑ i, (eaclCalculateSai (play (EaclData n) events)).sai i ≤ bound ∧
      (eaclCalculateSai (play (EaclData n) events)).loadLvl =
        ∑ i, (eaclCalculateSai (play (EaclData n) events)).sai i ∧
      ∀ e, (eaclCalculateSai (play (EaclData n) events)).sai e ≤ (record e events).largest := by
  have hcount := sum_accessCount_le hevents
  have hsai := sum_sai_le hevents
  have hhalf := sum_sai_calculateSai_le (play (EaclData n) events)
  refine ⟨by omega, ?_, ?_⟩
  · show sumSai (eaclCalculateSai (play (EaclData n) events)).sai = _
    rw [sumSai_eq]
    exact Nat.mod_eq_of_lt (by omega)
  · intro e
    obtain ⟨hcount, hsai⟩ := count_le_record_and_sai_le e events
    show ((play (EaclData n) events).sai e + (play (EaclData n) events).accessCount e) / 2
      ≤ max (record e events).count ((record e events).rounds.foldr max 0)
    omega

/-- Two accesses, a round, another access. -/
theorem load_within_traffic_three :
    ∑ i, (eaclCalculateSai (play (EaclData 2)
        [.incrAccess 0, .incrAccess 1, .round, .incrAccess 1])).sai i ≤ 3 ∧
      (eaclCalculateSai (play (EaclData 2)
        [.incrAccess 0, .incrAccess 1, .round, .incrAccess 1])).loadLvl =
        ∑ i, (eaclCalculateSai (play (EaclData 2)
          [.incrAccess 0, .incrAccess 1, .round, .incrAccess 1])).sai i ∧
      ∀ e, (eaclCalculateSai (play (EaclData 2)
        [.incrAccess 0, .incrAccess 1, .round, .incrAccess 1])).sai e ≤
        (record e [.incrAccess 0, .incrAccess 1, .round, .incrAccess 1]).largest :=
  load_within_traffic (by decide) _ (roundsWithin_of_countP_le (by decide))

end Indedh

/-! ## `eacl_windowed.c`: the index is that of the window -/

/-- The mean of the counts of the last `window` rounds, rounded down. -/
def Record.mean (window : Nat) (r : Record) : Nat :=
  if r.rounds = [] then 0
  else (r.rounds.take window).sum / min window r.rounds.length

/-- The index of an entry with this record. -/
def Record.sai (window : Nat) (r : Record) : Nat := (r.mean window + r.count) / 2

/-- The record in `uint32_t` counts. -/
def Record.counted (r : Record) : Record where
  count := r.count % 2 ^ 32
  rounds := r.rounds.map (· % 2 ^ 32)

/-- The mean with a `uint64_t` sum. -/
def Record.mean64 (window : Nat) (r : Record) : Nat :=
  if r.rounds = [] then 0
  else (r.rounds.take window).sum % 2 ^ 64 / min window r.rounds.length

/-- The sum does not wrap for windows of up to `2 ^ 32` rounds. -/
theorem Record.mean64_counted {window : Nat} (hwindow : window ≤ 2 ^ 32) (r : Record) :
    r.counted.mean64 window = r.counted.mean window := by
  have hsum : (r.counted.rounds.take window).sum ≤
      (r.counted.rounds.take window).length * (2 ^ 32 - 1) := by
    apply List.sum_le_card_nsmul
    intro count hcount
    obtain ⟨round, _, rfl⟩ := List.mem_map.mp (List.mem_of_mem_take hcount)
    omega
  have hlen : (r.counted.rounds.take window).length ≤ window := List.length_take_le _ _
  have hlt : (r.counted.rounds.take window).sum < 2 ^ 64 := by
    calc (r.counted.rounds.take window).sum
        ≤ (r.counted.rounds.take window).length * (2 ^ 32 - 1) := hsum
      _ ≤ 2 ^ 32 * (2 ^ 32 - 1) := Nat.mul_le_mul_right _ (hlen.trans hwindow)
      _ < 2 ^ 64 := by decide
  rw [Record.mean64, Record.mean, Nat.mod_eq_of_lt hlt]

/-- Counts that fit are counted as they are. -/
theorem Record.counted_eq {r : Record} (hcount : r.count < 2 ^ 32)
    (hrounds : ∀ count ∈ r.rounds, count < 2 ^ 32) : r.counted = r := by
  have hmap : r.rounds.map (· % 2 ^ 32) = r.rounds := by
    rw [List.map_congr_left fun count hmem => Nat.mod_eq_of_lt (hrounds count hmem)]
    exact List.map_id _
  rw [Record.counted, hmap, Nat.mod_eq_of_lt hcount]

section Windowed

open EaclWindowed

variable {window : Nat} [NeZero window]

/-- The list counts the record of each entry. -/
theorem count_eq_and_keeps (e : Fin n) (events : List (Event n)) :
    (play (EaclData n window) events).accessCount e = (record e events).counted.count ∧
      ((play (EaclData n window) events).oldAccesses e).Keeps
        (record e events).counted.rounds := by
  refine play_record_rule (A := EaclData n window)
    (P := fun self r => self.accessCount e = r.counted.count ∧
      (self.oldAccesses e).Keeps r.counted.rounds)
    ⟨rfl, Queue.keeps_queueNew⟩ ?_ ?_ ?_ ?_ events
  · rintro self r ⟨hcount, hkeeps⟩
    refine ⟨?_, hkeeps⟩
    show Function.update self.accessCount e _ e = (r.count + 1) % 2 ^ 32
    rw [Function.update_self, hcount]
    exact Nat.mod_add_mod _ _ _
  · rintro self r -
    show Function.update self.accessCount e 0 e = 0 ∧
      (Function.update self.oldAccesses e _ e).Keeps []
    rw [Function.update_self, Function.update_self]
    exact ⟨rfl, Queue.keeps_queueReset _⟩
  · rintro self r index he ⟨hcount, hkeeps⟩
    have hne := Ne.symm he
    constructor
    · refine ⟨?_, hkeeps⟩
      show Function.update self.accessCount index _ e = _
      rwa [Function.update_of_ne hne]
    · show Function.update self.accessCount index 0 e = _ ∧
        (Function.update self.oldAccesses index _ e).Keeps _
      rw [Function.update_of_ne hne, Function.update_of_ne hne]
      exact ⟨hcount, hkeeps⟩
  · rintro self r ⟨hcount, hkeeps⟩
    have hput := hkeeps.queuePut r.counted.count
    rw [← hcount] at hput
    refine ⟨rfl, ?_⟩
    show ((self.oldAccesses e).queuePut (self.accessCount e)).Keeps
      (r.counted.count :: r.counted.rounds)
    rwa [← hcount]

theorem queueMean_eq (e : Fin n) (events : List (Event n)) :
    ((play (EaclData n window) events).oldAccesses e).queueMean =
      (record e events).counted.mean64 window := by
  rw [(count_eq_and_keeps e events).2.queueMean, Record.mean64, List.length_take]
  split
  · rename_i hnil
    simp [hnil]
  · rfl

theorem sai_calculateSai (e : Fin n) (events : List (Event n)) :
    (eaclCalculateSai (play (EaclData n window) events)).sai e =
      ((record e events).counted.mean64 window + (record e events).counted.count) / 2 := by
  show (((play (EaclData n window) events).oldAccesses e).queueMean +
    (play (EaclData n window) events).accessCount e) / 2 = _
  rw [queueMean_eq, (count_eq_and_keeps e events).1]

/-- As long as the counts fit, the index is that of the record. -/
theorem sai_calculateSai_of_lt (hwindow : window ≤ 2 ^ 32) {e : Fin n}
    {events : List (Event n)} (hcount : (record e events).count < 2 ^ 32)
    (hrounds : ∀ count ∈ (record e events).rounds, count < 2 ^ 32) :
    (eaclCalculateSai (play (EaclData n window) events)).sai e =
      (record e events).sai window := by
  rw [sai_calculateSai, Record.mean64_counted hwindow, Record.counted_eq hcount hrounds,
    Record.sai]

end Windowed

/-- For a window of at least one round and any sequence of accesses, computations and
resets: after a computation the index of an entry is half of the sum of the mean of the
last `window` rounds of its record and its current count, where a count is a `uint32_t` and
the sum of the counts a `uint64_t`. -/
theorem sai_eq_of_record (n window : Nat) (events : List (Event n)) (e : Fin n) :
    (EaclWindowed.eaclCalculateSai
      (play (EaclWindowed.EaclData n (window + 1)) events)).sai e =
      ((record e events).counted.mean64 (window + 1) + (record e events).counted.count) / 2 :=
  sai_calculateSai e events

theorem record_replicate (e : Fin n) (k : Nat) :
    record e (List.replicate k (.incrAccess e)) = { count := k, rounds := [] } := by
  induction k with
  | zero => rfl
  | succ k ih => rw [List.replicate_succ', record_concat, ih, Record.after, if_pos rfl]

/-- Of `2 ^ 32` accesses in a round the index shows none. -/
theorem exists_count_wraps :
    ¬ ∀ (n window : Nat) (events : List (Event n)) (e : Fin n),
      (EaclWindowed.eaclCalculateSai
        (play (EaclWindowed.EaclData n (window + 1)) events)).sai e =
        (record e events).sai (window + 1) := by
  intro h
  have hsai := h 1 11 (List.replicate (2 ^ 32) (.incrAccess 0)) 0
  rw [sai_calculateSai, record_replicate] at hsai
  revert hsai
  decide

end MeDiE.EaclRounds
