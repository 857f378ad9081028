import MeDiE.Eacl.Basic

/-!
# `eacl_indedh.c`

The access index is smoothed exponentially with `ALPHA = 0.5`.  The sum of two
`uint32_t` values is exact as a `double`, so the new index is the half of the
sum rounded down.  Entry numbers are indices of the arrays, for which the
argument checks succeed.
-/

namespace MeDiE.EaclIndedh

/-- `struct eacl`. -/
structure EaclData (n : Nat) where
  accessCount : Fin n → Nat
  sai : Fin n → Nat
  loadLvl : Nat

variable {n : Nat}

/-- `eacl_init`. -/
def eaclInit : EaclData n where
  accessCount _ := 0
  sai _ := 0
  loadLvl := 0

/-- `eacl_incr_access`. -/
def eaclIncrAccess (self : EaclData n) (index : Fin n) : EaclData n :=
  { self with
    accessCount := Function.update self.accessCount index
      ((self.accessCount index + 1) % 2 ^ 32) }

/-- `eacl_reset_access`. -/
def eaclResetAccess (self : EaclData n) : EaclData n :=
  { self with accessCount := fun _ => 0 }

/-- `eacl_reset_all_entry`. -/
def eaclResetAllEntry (self : EaclData n) (index : Fin n) : EaclData n :=
  { self with
    accessCount := Function.update self.accessCount index 0
    sai := Function.update self.sai index 0 }

/-- `eacl_calculate_sai`. -/
def eaclCalculateSai (self : EaclData n) : EaclData n :=
  let sai := fun i => (self.sai i + self.accessCount i) / 2
  { self with
    sai := sai
    loadLvl := sumSai sai }

/-! ## The parts of the loop -/

/-- `load_lvl = 0`. -/
def clearLoad (self : EaclData n) : EaclData n := { self with loadLvl := 0 }

/-- `sai[index] = value`. -/
def setSai (self : EaclData n) (index : Fin n) (value : Nat) : EaclData n :=
  { self with sai := Function.update self.sai index value }

/-- `load_lvl += sai[index]`. -/
def addLoad (self : EaclData n) (index : Fin n) : EaclData n :=
  { self with loadLvl := (self.loadLvl + self.sai index) % 2 ^ 32 }

/-- One turn of the loop. -/
def turn (self : EaclData n) (i : Fin n) : EaclData n :=
  addLoad (setSai self i ((self.sai i + self.accessCount i) / 2)) i

/-- The loop over some of the entries. -/
theorem foldl_turn (self : EaclData n) {l : List (Fin n)} (hl : l.Nodup) :
    l.foldl turn (clearLoad self) =
      { self with
        sai := fun i =>
          if i ∈ l then (self.sai i + self.accessCount i) / 2 else self.sai i
        loadLvl := l.foldl
          (fun loadLvl i => (loadLvl + (self.sai i + self.accessCount i) / 2) % 2 ^ 32) 0 } := by
  induction l using List.reverseRecOn with
  | nil => simp [clearLoad]
  | append_singleton l i ih =>
      obtain ⟨hl, _, hdisjoint⟩ := List.nodup_append.mp hl
      have hi : i ∉ l := fun hmem => hdisjoint i hmem i List.mem_cons_self rfl
      rw [List.foldl_concat, ih hl, List.foldl_concat,
        ← update_fill self.sai (fun i => (self.sai i + self.accessCount i) / 2)]
      simp [turn, setSai, addLoad, hi]

theorem eaclCalculateSai_eq (self : EaclData n) :
    eaclCalculateSai self = (List.finRange n).foldl turn (clearLoad self) := by
  rw [foldl_turn self (List.nodup_finRange n)]
  simp [eaclCalculateSai, sumSai]

/-- At most `k` accesses are counted, none of which has got into the index. -/
def Quiet (self : EaclData n) (k : Nat) (e : Fin n) : Prop :=
  self.accessCount e ≤ k ∧ self.sai e = 0

/-! ## What the functions do to a quiet entry -/

theorem quiet_mono {self : EaclData n} {k l : Nat} {e : Fin n} (h : Quiet self k e)
    (hkl : k ≤ l) : Quiet self l e := ⟨h.1.trans hkl, h.2⟩

theorem quiet_eaclInit (e : Fin n) : Quiet (eaclInit : EaclData n) 0 e :=
  ⟨Nat.le_refl 0, rfl⟩

theorem quiet_eaclIncrAccess {self : EaclData n} {k : Nat} {e : Fin n}
    (h : Quiet self k e) : Quiet (eaclIncrAccess self e) (k + 1) e := by
  constructor
  · have hcount : (eaclIncrAccess self e).accessCount e =
        (self.accessCount e + 1) % 2 ^ 32 := Function.update_self _ _ _
    rw [hcount]
    exact (Nat.mod_le _ _).trans (Nat.succ_le_succ h.1)
  · exact h.2

theorem quiet_eaclIncrAccess_ne {self : EaclData n} {k : Nat} {e i : Fin n}
    (hne : i ≠ e) (h : Quiet self k i) : Quiet (eaclIncrAccess self e) k i := by
  constructor
  · have hcount : (eaclIncrAccess self e).accessCount i = self.accessCount i :=
      Function.update_of_ne hne _ _
    rw [hcount]
    exact h.1
  · exact h.2

theorem quiet_eaclResetAccess {self : EaclData n} {k : Nat} {e : Fin n}
    (h : Quiet self k e) : Quiet (eaclResetAccess self) k e :=
  ⟨Nat.zero_le _, h.2⟩

theorem quiet_eaclResetAllEntry (self : EaclData n) (e : Fin n) :
    Quiet (eaclResetAllEntry self e) 0 e := by
  constructor <;> simp [eaclResetAllEntry]

theorem quiet_eaclResetAllEntry_ne {self : EaclData n} {k : Nat} {e i : Fin n}
    (hne : i ≠ e) (h : Quiet self k i) : Quiet (eaclResetAllEntry self e) k i := by
  constructor <;> simp [eaclResetAllEntry, hne, h.1, h.2]

/-- The index is written as it was, or at another entry. -/
theorem quiet_setSai {self : EaclData n} {k value : Nat} {e i : Fin n} (h : Quiet self k e)
    (hvalue : i = e → value = 0) : Quiet (setSai self i value) k e := by
  refine ⟨h.1, ?_⟩
  by_cases he : i = e
  · rw [hvalue he, he]
    exact Function.update_self _ _ _
  · exact (Function.update_of_ne (Ne.symm he) _ _).trans h.2

/-- What one access leaves of an index of 0. -/
theorem next_of_quiet {self : EaclData n} {k : Nat} {e : Fin n} (h : Quiet self k e)
    (hk : k ≤ 1) : (0 + self.accessCount e) / 2 = 0 := by
  have hcount := h.1
  omega

instance : Eacl (EaclData n) n where
  eaclInit := eaclInit
  incrAccess := eaclIncrAccess
  resetAccess := eaclResetAccess
  resetAllEntry := eaclResetAllEntry
  calculateSai := eaclCalculateSai
  sai := EaclData.sai
  readLoadLvl := EaclData.loadLvl
  clearLoad := clearLoad
  oldIndex := EaclData.sai
  accessCount := EaclData.accessCount
  setSai := setSai
  addLoad := addLoad
  calculateSai_eq := eaclCalculateSai_eq

/-! ## What the functions do to the index and the load -/

theorem sai_eaclIncrAccess (self : EaclData n) (e : Fin n) :
    (eaclIncrAccess self e).sai = self.sai := rfl

theorem loadLvl_eaclIncrAccess (self : EaclData n) (e : Fin n) :
    (eaclIncrAccess self e).loadLvl = self.loadLvl := rfl

theorem sai_eaclResetAccess (self : EaclData n) : (eaclResetAccess self).sai = self.sai := rfl

theorem loadLvl_eaclResetAccess (self : EaclData n) :
    (eaclResetAccess self).loadLvl = self.loadLvl := rfl

theorem sai_eaclResetAllEntry (self : EaclData n) (e : Fin n) :
    (eaclResetAllEntry self e).sai = Function.update self.sai e 0 := rfl

theorem loadLvl_eaclResetAllEntry (self : EaclData n) (e : Fin n) :
    (eaclResetAllEntry self e).loadLvl = self.loadLvl := rfl

instance : LawfulEacl (EaclData n) where
  sai_incrAccess := sai_eaclIncrAccess
  load_incrAccess := loadLvl_eaclIncrAccess
  sai_resetAccess := sai_eaclResetAccess
  load_resetAccess := loadLvl_eaclResetAccess
  sai_resetAllEntry := sai_eaclResetAllEntry
  load_resetAllEntry := loadLvl_eaclResetAllEntry

/-! ## Both arrays are of `uint32_t` -/

/-- Every field fits its type. -/
structure Fits (eacl : EaclData n) : Prop where
  count_lt : ∀ e, eacl.accessCount e < 2 ^ 32
  sai_lt : ∀ e, eacl.sai e < 2 ^ 32

theorem fits_eaclInit : Fits (eaclInit : EaclData n) where
  count_lt _ := Nat.two_pow_pos 32
  sai_lt _ := Nat.two_pow_pos 32

theorem fits_eaclIncrAccess {self : EaclData n} (h : Fits self) (index : Fin n) :
    Fits (eaclIncrAccess self index) where
  count_lt := update_lt h.count_lt (Nat.mod_lt _ (Nat.two_pow_pos 32)) index
  sai_lt := h.sai_lt

theorem fits_eaclResetAccess {self : EaclData n} (h : Fits self) :
    Fits (eaclResetAccess self) where
  count_lt _ := Nat.two_pow_pos 32
  sai_lt := h.sai_lt

theorem fits_eaclResetAllEntry {self : EaclData n} (h : Fits self) (index : Fin n) :
    Fits (eaclResetAllEntry self index) where
  count_lt := update_lt h.count_lt (Nat.two_pow_pos 32) index
  sai_lt := update_lt h.sai_lt (Nat.two_pow_pos 32) index

theorem fits_eaclCalculateSai {self : EaclData n} (h : Fits self) :
    Fits (eaclCalculateSai self) where
  count_lt := h.count_lt
  sai_lt e := by
    have hcount := h.count_lt e
    have hsai := h.sai_lt e
    show (self.sai e + self.accessCount e) / 2 < 2 ^ 32
    omega

end MeDiE.EaclIndedh
