import MeDiE.Eacl.Indedh
import MeDiE.Eacl.Windowed

/-!
# Calls on an access list

The threads of a server call the functions of its access list in no fixed order:
requests count accesses, the signal handler computes the indices and restarts the
counts, and a transfer resets the entry it moves.  `load_lvl` is a copy of the sum of
the indices that only `eacl_calculate_sai` brings up to date, whereas
`eacl_reset_all_entry` changes an index, too.
-/

namespace MeDiE.EaclCalls

variable {n : Nat} {A : Type} [Eacl A n]

/-- A call on an access list. -/
inductive Call (n : Nat)
  | incrAccess (index : Fin n)
  | calculateSai
  | resetAccess
  | resetAllEntry (index : Fin n)

/-- The list after a call. -/
def call (self : A) : Call n → A
  | .incrAccess index => Eacl.incrAccess self index
  | .calculateSai => Eacl.calculateSai self
  | .resetAccess => Eacl.resetAccess self
  | .resetAllEntry index => Eacl.resetAllEntry self index

/-- The list after `eacl_init` and some calls. -/
def callAll (A : Type) [Eacl A n] (calls : List (Call n)) : A :=
  calls.foldl call Eacl.eaclInit

theorem callAll_concat (calls : List (Call n)) (c : Call n) :
    callAll A (calls ++ [c]) = call (callAll A calls) c := by
  rw [callAll, List.foldl_concat]
  rfl

/-- An invariant of the calls holds of every list. -/
theorem callAll_invariant {P : A → Prop} (hinit : P Eacl.eaclInit)
    (hcall : ∀ a c, P a → P (call a c)) (calls : List (Call n)) : P (callAll A calls) := by
  induction calls using List.reverseRecOn with
  | nil => exact hinit
  | append_singleton calls c ih =>
      rw [callAll_concat]
      exact hcall _ c ih

/-- `load_lvl` is the sum of the indices, in `uint32_t`.  An EACL message that is built
now carries both. -/
def LoadIsSum (self : A) : Prop :=
  Eacl.readLoadLvl self = (∑ i, Eacl.sai self i) % 2 ^ 32

/-- The load is the sum of the indices after each of the calls. -/
def LoadStaysSum (A : Type) [Eacl A n] (calls : List (Call n)) : Prop :=
  ∀ made, made <+: calls → LoadIsSum (callAll A made)

/-- Whenever an entry is reset, its index is 0 already. -/
def ResetsIdle (A : Type) [Eacl A n] (calls : List (Call n)) : Prop :=
  ∀ made e, made ++ [.resetAllEntry e] <+: calls → Eacl.sai (callAll A made) e = 0

/-- What is needed to follow the load: both are 0 at the start, `eacl_calculate_sai` sums
the indices up, and an index is a `uint32_t`. -/
class SummedEacl (A : Type) {n : Nat} [Eacl A n] : Prop extends LawfulEacl A where
  sai_eaclInit : ∀ e, Eacl.sai (Eacl.eaclInit : A) e = 0
  load_eaclInit : Eacl.readLoadLvl (Eacl.eaclInit : A) = 0
  load_calculateSai : ∀ a : A,
    Eacl.readLoadLvl (Eacl.calculateSai a) = sumSai (Eacl.sai (Eacl.calculateSai a))
  sai_lt : ∀ (calls : List (Call n)) (e : Fin n), Eacl.sai (callAll A calls) e < 2 ^ 32

/-! ## The load after a call -/

/-- The wrapping sum is the sum modulo `2 ^ 32`. -/
theorem sumSai_eq (sai : Fin n → Nat) : sumSai sai = (∑ i, sai i) % 2 ^ 32 := by
  have hfold : ∀ (l : List (Fin n)) (load : Nat), load < 2 ^ 32 →
      l.foldl (fun loadLvl i => (loadLvl + sai i) % 2 ^ 32) load =
        (load + (l.map sai).sum) % 2 ^ 32 := by
    intro l
    induction l with
    | nil =>
        intro load hload
        rw [List.map_nil, List.sum_nil, Nat.add_zero, Nat.mod_eq_of_lt hload]
        rfl
    | cons i l ih =>
        intro load _
        rw [List.foldl_cons, ih _ (Nat.mod_lt _ (by decide)), List.map_cons, List.sum_cons,
          Nat.mod_add_mod, Nat.add_assoc]
  rw [sumSai, hfold _ 0 (by decide), Nat.zero_add, Fin.sum_univ_def]

/-- An array element in a sum is exchanged for its new value. -/
theorem sum_update_add (values : Fin n → Nat) (e : Fin n) (value : Nat) :
    (∑ i, Function.update values e value i) + values e = (∑ i, values i) + value := by
  rw [Finset.sum_update_of_mem (Finset.mem_univ e), Finset.sdiff_singleton_eq_erase,
    Nat.add_assoc, Finset.sum_erase_add _ _ (Finset.mem_univ e), Nat.add_comm]

section Load

variable [SummedEacl A]

theorem loadIsSum_eaclInit : LoadIsSum (Eacl.eaclInit : A) := by
  simp [LoadIsSum, SummedEacl.load_eaclInit, SummedEacl.sai_eaclInit]

theorem loadIsSum_incrAccess {self : A} (h : LoadIsSum self) (e : Fin n) :
    LoadIsSum (Eacl.incrAccess self e) := by
  rw [LoadIsSum, LawfulEacl.load_incrAccess, LawfulEacl.sai_incrAccess]
  exact h

theorem loadIsSum_resetAccess {self : A} (h : LoadIsSum self) :
    LoadIsSum (Eacl.resetAccess self) := by
  rw [LoadIsSum, LawfulEacl.load_resetAccess, LawfulEacl.sai_resetAccess]
  exact h

theorem loadIsSum_calculateSai (self : A) : LoadIsSum (Eacl.calculateSai self) := by
  rw [LoadIsSum, SummedEacl.load_calculateSai, sumSai_eq]

/-- The load is kept by a reset, so the index that the reset clears must have been 0. -/
theorem loadIsSum_resetAllEntry_iff {self : A} {e : Fin n} (h : LoadIsSum self)
    (hlt : Eacl.sai self e < 2 ^ 32) :
    LoadIsSum (Eacl.resetAllEntry self e) ↔ Eacl.sai self e = 0 := by
  rw [LoadIsSum, LawfulEacl.load_resetAllEntry, LawfulEacl.sai_resetAllEntry, h]
  have hsum := sum_update_add (Eacl.sai self) e 0
  omega

theorem loadIsSum_call {self : A} {c : Call n} (h : LoadIsSum self)
    (hreset : ∀ e, c = .resetAllEntry e → Eacl.sai self e = 0) : LoadIsSum (call self c) := by
  cases c with
  | incrAccess e => exact loadIsSum_incrAccess h e
  | calculateSai => exact loadIsSum_calculateSai self
  | resetAccess => exact loadIsSum_resetAccess h
  | resetAllEntry e =>
      have hidle := hreset e rfl
      exact (loadIsSum_resetAllEntry_iff h (by omega)).mpr hidle

theorem loadStaysSum_of_resetsIdle {calls : List (Call n)} (h : ResetsIdle A calls) :
    LoadStaysSum A calls := by
  intro made
  induction made using List.reverseRecOn with
  | nil =>
      intro _
      exact loadIsSum_eaclInit
  | append_singleton made c ih =>
      intro hmade
      rw [callAll_concat]
      apply loadIsSum_call (ih ((List.prefix_append made [c]).trans hmade))
      intro e hc
      exact h made e (hc ▸ hmade)

theorem resetsIdle_of_loadStaysSum {calls : List (Call n)} (h : LoadStaysSum A calls) :
    ResetsIdle A calls := by
  intro made e hmade
  have hbefore := h made ((List.prefix_append made _).trans hmade)
  have hafter := h _ hmade
  rw [callAll_concat] at hafter
  exact (loadIsSum_resetAllEntry_iff hbefore (SummedEacl.sai_lt made e)).mp hafter

end Load

/-! ## The two lists -/

instance : SummedEacl (EaclIndedh.EaclData n) where
  sai_eaclInit _ := rfl
  load_eaclInit := rfl
  load_calculateSai _ := rfl
  sai_lt calls e := by
    have hfits : EaclIndedh.Fits (callAll (EaclIndedh.EaclData n) calls) := by
      apply callAll_invariant EaclIndedh.fits_eaclInit
      intro a c ha
      cases c with
      | incrAccess e => exact EaclIndedh.fits_eaclIncrAccess ha e
      | calculateSai => exact EaclIndedh.fits_eaclCalculateSai ha
      | resetAccess => exact EaclIndedh.fits_eaclResetAccess ha
      | resetAllEntry e => exact EaclIndedh.fits_eaclResetAllEntry ha e
    exact hfits.sai_lt e

instance {windowSize : Nat} [NeZero windowSize] :
    SummedEacl (EaclWindowed.EaclData n windowSize) where
  sai_eaclInit _ := rfl
  load_eaclInit := rfl
  load_calculateSai _ := rfl
  sai_lt calls e := by
    have hfits : EaclWindowed.Fits (callAll (EaclWindowed.EaclData n windowSize) calls) := by
      apply callAll_invariant EaclWindowed.fits_eaclInit
      intro a c ha
      cases c with
      | incrAccess e => exact EaclWindowed.fits_eaclIncrAccess ha e
      | calculateSai => exact EaclWindowed.fits_eaclCalculateSai ha
      | resetAccess => exact EaclWindowed.fits_eaclResetAccess ha
      | resetAllEntry e => exact EaclWindowed.fits_eaclResetAllEntry ha e
    exact hfits.sai_lt e

/-- For every sequence of calls and both lists, the load stays the sum of the indices
exactly when no entry is reset whose index is not 0. -/
theorem loadStaysSum_iff_resetsIdle (n window : Nat) (calls : List (Call n)) :
    (LoadStaysSum (EaclIndedh.EaclData n) calls ↔ ResetsIdle (EaclIndedh.EaclData n) calls) ∧
    (LoadStaysSum (EaclWindowed.EaclData n (window + 1)) calls ↔
      ResetsIdle (EaclWindowed.EaclData n (window + 1)) calls) :=
  ⟨⟨resetsIdle_of_loadStaysSum, loadStaysSum_of_resetsIdle⟩,
    ⟨resetsIdle_of_loadStaysSum, loadStaysSum_of_resetsIdle⟩⟩

/-- An entry with index 1 is given away: the load is still 1. -/
theorem exists_load_of_reset_entry :
    (¬ ∀ (n : Nat) (calls : List (Call n)), LoadStaysSum (EaclIndedh.EaclData n) calls) ∧
    ¬ ∀ (n window : Nat) (calls : List (Call n)),
      LoadStaysSum (EaclWindowed.EaclData n (window + 1)) calls := by
  constructor
  · intro h
    have hload := h 1 [.incrAccess 0, .incrAccess 0, .calculateSai, .resetAllEntry 0] _
      (List.prefix_refl _)
    revert hload
    unfold LoadIsSum
    decide
  · intro h
    have hload := h 1 11 [.incrAccess 0, .incrAccess 0, .calculateSai, .resetAllEntry 0] _
      (List.prefix_refl _)
    revert hload
    unfold LoadIsSum
    decide

end MeDiE.EaclCalls
