import Mathlib.Tactic

/-!
# Reading and printing hexadecimal numbers

`readHex` takes upper and lower case digits and any number of leading zeros, `showHex`
prints lower case digits without leading zeros.  So what has been printed is read back, but
a string is printed again as it was only when it is in the form that is printed.
-/

namespace MeDiE.Verified.Hex

/-- The value of a digit. -/
def digitValue (c : Char) : Option Nat :=
  if '0' ≤ c ∧ c ≤ '9' then some (c.toNat - '0'.toNat)
  else if 'a' ≤ c ∧ c ≤ 'f' then some (c.toNat - 'a'.toNat + 10)
  else if 'A' ≤ c ∧ c ≤ 'F' then some (c.toNat - 'A'.toNat + 10)
  else none

/-- A character that is a digit. -/
def IsDigit (c : Char) : Prop := (digitValue c).isSome

instance (c : Char) : Decidable (IsDigit c) :=
  inferInstanceAs (Decidable ((digitValue c).isSome))

/-- One more digit at the end of a number. -/
def addDigit (number : Nat) (c : Char) : Option Nat :=
  (digitValue c).map (16 * number + ·)

/-- The number a string stands for; `none` when it is empty or has another character. -/
def readHex (s : List Char) : Option Nat :=
  if s = [] then none else s.foldlM addDigit 0

/-- The digits of a number. -/
def showHex (number : Nat) : List Char := Nat.toDigits 16 number

/-- The string is the one that is printed for its number. -/
def Canonical (s : List Char) : Prop := (readHex s).map showHex = some s

instance (s : List Char) : Decidable (Canonical s) :=
  inferInstanceAs (Decidable ((readHex s).map showHex = some s))

theorem digitValue_digitChar {d : Nat} (hd : d < 16) : digitValue d.digitChar = some d := by
  revert d
  decide

theorem showHex_ne_nil (number : Nat) : showHex number ≠ [] := Nat.toDigits_ne_nil

theorem isDigit_of_mem_showHex {number : Nat} {c : Char} (h : c ∈ showHex number) :
    IsDigit c := by
  have hdigit : ∀ d < 16, IsDigit d.digitChar := fun d hd => by
    rw [IsDigit, digitValue_digitChar hd]
    rfl
  induction number using Nat.strong_induction_on with
  | _ number ih =>
      unfold showHex at h
      rw [Nat.toDigits_eq_if (by norm_num)] at h
      split at h
      · rename_i hlt
        rw [List.mem_singleton] at h
        exact h ▸ hdigit number hlt
      · rcases List.mem_append.mp h with h | h
        · exact ih (number / 16) (by omega) h
        · rw [List.mem_singleton] at h
          exact h ▸ hdigit _ (Nat.mod_lt _ (by norm_num))

/-- What has been printed is read back. -/
theorem readHex_showHex (number : Nat) : readHex (showHex number) = some number := by
  rw [readHex, if_neg (showHex_ne_nil number)]
  induction number using Nat.strong_induction_on with
  | _ number ih =>
      unfold showHex
      rw [Nat.toDigits_eq_if (by norm_num)]
      split
      · rename_i hlt
        simp [addDigit, digitValue_digitChar hlt]
      · have hprefix := ih (number / 16) (by omega)
        unfold showHex at hprefix
        have hlast := digitValue_digitChar (Nat.mod_lt number (show 0 < 16 by norm_num))
        rw [List.foldlM_append, hprefix]
        simp [addDigit, hlast]
        omega

theorem showHex_inj {number number' : Nat} (h : showHex number = showHex number') :
    number = number' := by
  have hread := readHex_showHex number
  rw [h, readHex_showHex] at hread
  exact (Option.some.inj hread).symm

theorem canonical_showHex (number : Nat) : Canonical (showHex number) := by
  rw [Canonical, readHex_showHex]
  rfl

/-- Every string of digits stands for a number. -/
theorem exists_readHex {s : List Char} (hne : s ≠ []) (hs : ∀ c ∈ s, IsDigit c) :
    ∃ number, readHex s = some number := by
  rw [readHex, if_neg hne]
  clear hne
  have hfold : ∀ number, ∃ number', s.foldlM addDigit number = some number' := by
    induction s with
    | nil => exact fun number => ⟨number, rfl⟩
    | cons c s ih =>
        intro number
        obtain ⟨d, hd⟩ := Option.isSome_iff_exists.mp (hs c (by simp))
        obtain ⟨number', hrest⟩ := ih (fun c hc => hs c (by simp [hc])) (16 * number + d)
        exact ⟨number', by rw [List.foldlM_cons, addDigit, hd]; exact hrest⟩
  exact hfold 0

example : readHex "0Ff".toList = some 255 ∧ showHex 255 = "ff".toList := by decide

end MeDiE.Verified.Hex
