import Mathlib.Tactic

/-!
# Conversions between mathematical integers and 32-bit C integers

The programs compute with `int` and `uint32_t` side by side, and a sum of the
two is unsigned.  A model evaluates each expression over `Int` and applies the
conversion that the C expression applies; the two lemmas below remove the
conversion again wherever the value is known to fit.
-/

namespace MeDiE.Verified.Word32

/-- Conversion to `int`: the two's complement reading of the low 32 bits. -/
def toInt32 (x : Int) : Int := x.bmod (2 ^ 32)

/-- Conversion to `uint32_t`: the low 32 bits. -/
def toUInt32 (x : Int) : Int := x % 2 ^ 32

theorem toInt32_eq {x : Int} (hlo : -2 ^ 31 ≤ x) (hhi : x < 2 ^ 31) :
    toInt32 x = x := by
  unfold toInt32
  rw [Int.bmod_def]
  split <;> omega

/-- A value between `a` and `2 ^ 32 - a` does not come closer to zero than `a`
when it is read as an `int`. -/
theorem le_natAbs_toInt32 {a x : Int} (ha : 0 ≤ a) (hlo : a ≤ x)
    (hhi : x ≤ 2 ^ 32 - a) : a.natAbs ≤ (toInt32 x).natAbs := by
  unfold toInt32
  rw [Int.bmod_def]
  split <;> omega

theorem toUInt32_eq {x : Int} (hlo : 0 ≤ x) (hhi : x < 2 ^ 32) :
    toUInt32 x = x :=
  Int.emod_eq_of_lt hlo hhi

end MeDiE.Verified.Word32
