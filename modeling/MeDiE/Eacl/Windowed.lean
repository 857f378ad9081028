import MeDiE.Eacl.Basic
import MeDiE.Eacl.Queue

/-!
# `eacl_windowed.c`

The access index is the half of the current count plus the mean of the counts
of the last `WINDOW_SIZE` rounds, rounded down.
-/

namespace MeDiE.EaclWindowed

open MeDiE.Eacl

/-- `struct eacl`. -/
structure EaclData (n windowSize : Nat) where
  accessCount : Fin n → Nat
  sai : Fin n → Nat
  oldAccesses : Fin n → Queue windowSize
  loadLvl : Nat

variable {n windowSize : Nat}

/-- `eacl_init`. -/
def eaclInit [NeZero windowSize] : EaclData n windowSize where
  accessCount _ := 0
  sai _ := 0
  oldAccesses _ := Queue.queueNew
  loadLvl := 0

/-- `eacl_incr_access`. -/
def eaclIncrAccess (self : EaclData n windowSize) (index : Fin n) :
    EaclData n windowSize :=
  { self with
    accessCount := Function.update self.accessCount index
      ((self.accessCount index + 1) % 2 ^ 32) }

/-- `eacl_reset_access`. -/
def eaclResetAccess (self : EaclData n windowSize) : EaclData n windowSize :=
  { self with
    oldAccesses := fun i => (self.oldAccesses i).queuePut (self.accessCount i)
    accessCount := fun _ => 0 }

/-- `eacl_reset_all_entry`. -/
def eaclResetAllEntry (self : EaclData n windowSize) (index : Fin n) :
    EaclData n windowSize :=
  { self with
    accessCount := Function.update self.accessCount index 0
    sai := Function.update self.sai index 0
    oldAccesses := Function.update self.oldAccesses index
      (self.oldAccesses index).queueReset }

/-- `eacl_calculate_sai`. -/
def eaclCalculateSai (self : EaclData n windowSize) : EaclData n windowSize :=
  let sai := fun i => ((self.oldAccesses i).queueMean + self.accessCount i) / 2
  { self with
    sai := sai
    loadLvl := sumSai sai }

/-! ## The parts of the loop -/

/-- `load_lvl = 0`. -/
def clearLoad (self : EaclData n windowSize) : EaclData n windowSize :=
  { self with loadLvl := 0 }

/-- `sai[index] = value`. -/
def setSai (self : EaclData n windowSize) (index : Fin n) (value : Nat) :
    EaclData n windowSize :=
  { self with sai := Function.update self.sai index value }

/-- `load_lvl += sai[index]`. -/
def addLoad (self : EaclData n windowSize) (index : Fin n) : EaclData n windowSize :=
  { self with loadLvl := (self.loadLvl + self.sai index) % 2 ^ 32 }

/-- What the index of an entry becomes. -/
def nextSai (self : EaclData n windowSize) (i : Fin n) : Nat :=
  ((self.oldAccesses i).queueMean + self.accessCount i) / 2

/-- The loop over some of the entries. -/
theorem foldl_turn (self : EaclData n windowSize) {l : List (Fin n)} (hl : l.Nodup) :
    l.foldl (fun a i => addLoad (setSai a i (nextSai a i)) i) (clearLoad self) =
      { self with
        sai := fun i => if i ∈ l then nextSai self i else self.sai i
        loadLvl := l.foldl (fun loadLvl i => (loadLvl + nextSai self i) % 2 ^ 32) 0 } := by
  induction l using List.reverseRecOn with
  | nil => simp [clearLoad]
  | append_singleton l i ih =>
      obtain ⟨hl, _, _⟩ := List.nodup_append.mp hl
      rw [List.foldl_concat, ih hl, List.foldl_concat, ← update_fill self.sai (nextSai self)]
      simp [setSai, addLoad, nextSai]

theorem eaclCalculateSai_eq (self : EaclData n windowSize) :
    eaclCalculateSai self =
      (List.finRange n).foldl (fun a i => addLoad (setSai a i (nextSai a i)) i)
        (clearLoad self) := by
  rw [foldl_turn self (List.nodup_finRange n)]
  simp [eaclCalculateSai, sumSai, nextSai]

instance [NeZero windowSize] : Eacl (EaclData n windowSize) n where
  eaclInit := eaclInit
  incrAccess := eaclIncrAccess
  resetAccess := eaclResetAccess
  resetAllEntry := eaclResetAllEntry
  calculateSai := eaclCalculateSai
  sai := EaclData.sai
  readLoadLvl := EaclData.loadLvl
  clearLoad := clearLoad
  oldIndex self i := (self.oldAccesses i).queueMean
  accessCount := EaclData.accessCount
  setSai := setSai
  addLoad := addLoad
  calculateSai_eq := eaclCalculateSai_eq

/-! ## What the functions do to the index and the load -/

theorem sai_eaclIncrAccess (self : EaclData n windowSize) (e : Fin n) :
    (eaclIncrAccess self e).sai = self.sai := rfl

theorem loadLvl_eaclIncrAccess (self : EaclData n windowSize) (e : Fin n) :
    (eaclIncrAccess self e).loadLvl = self.loadLvl := rfl

theorem sai_eaclResetAccess (self : EaclData n windowSize) :
    (eaclResetAccess self).sai = self.sai := rfl

theorem loadLvl_eaclResetAccess (self : EaclData n windowSize) :
    (eaclResetAccess self).loadLvl = self.loadLvl := rfl

theorem sai_eaclResetAllEntry (self : EaclData n windowSize) (e : Fin n) :
    (eaclResetAllEntry self e).sai = Function.update self.sai e 0 := rfl

theorem loadLvl_eaclResetAllEntry (self : EaclData n windowSize) (e : Fin n) :
    (eaclResetAllEntry self e).loadLvl = self.loadLvl := rfl

instance [NeZero windowSize] : LawfulEacl (EaclData n windowSize) where
  sai_incrAccess := sai_eaclIncrAccess
  load_incrAccess := loadLvl_eaclIncrAccess
  sai_resetAccess := sai_eaclResetAccess
  load_resetAccess := loadLvl_eaclResetAccess
  sai_resetAllEntry := sai_eaclResetAllEntry
  load_resetAllEntry := loadLvl_eaclResetAllEntry

/-! ## All values are of `uint32_t` -/

/-- Every field fits its type. -/
structure Fits (eacl : EaclData n windowSize) : Prop where
  count_lt : ∀ e, eacl.accessCount e < 2 ^ 32
  sai_lt : ∀ e, eacl.sai e < 2 ^ 32
  old_lt : ∀ e i, (eacl.oldAccesses e).values i < 2 ^ 32

theorem fits_eaclInit [NeZero windowSize] : Fits (eaclInit : EaclData n windowSize) where
  count_lt _ := Nat.two_pow_pos 32
  sai_lt _ := Nat.two_pow_pos 32
  old_lt _ _ := Nat.two_pow_pos 32

theorem fits_eaclIncrAccess {self : EaclData n windowSize} (h : Fits self) (index : Fin n) :
    Fits (eaclIncrAccess self index) where
  count_lt := update_lt h.count_lt (Nat.mod_lt _ (Nat.two_pow_pos 32)) index
  sai_lt := h.sai_lt
  old_lt := h.old_lt

theorem fits_eaclResetAccess {self : EaclData n windowSize} (h : Fits self) :
    Fits (eaclResetAccess self) where
  count_lt _ := Nat.two_pow_pos 32
  sai_lt := h.sai_lt
  old_lt e := update_lt (h.old_lt e) (h.count_lt e) (self.oldAccesses e).next

theorem fits_eaclResetAllEntry {self : EaclData n windowSize} (h : Fits self)
    (index : Fin n) : Fits (eaclResetAllEntry self index) where
  count_lt := update_lt h.count_lt (Nat.two_pow_pos 32) index
  sai_lt := update_lt h.sai_lt (Nat.two_pow_pos 32) index
  old_lt e i := by
    have hold := h.old_lt e i
    by_cases he : e = index
    · subst he
      simp only [eaclResetAllEntry, Function.update_self, Queue.queueReset]
      split <;> omega
    · simp only [eaclResetAllEntry, Function.update_of_ne he]
      exact hold

theorem fits_eaclCalculateSai {self : EaclData n windowSize} (h : Fits self) :
    Fits (eaclCalculateSai self) where
  count_lt := h.count_lt
  sai_lt e := by
    have hcount := h.count_lt e
    have hmean := (self.oldAccesses e).queueMean_lt (by decide) (h.old_lt e)
    show ((self.oldAccesses e).queueMean + self.accessCount e) / 2 < 2 ^ 32
    omega
  old_lt := h.old_lt

end MeDiE.EaclWindowed
