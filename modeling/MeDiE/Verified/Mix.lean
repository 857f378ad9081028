import Mathlib.Data.Int.CardIntervalMod
import Mathlib.Data.Nat.Count
import Mathlib.Tactic

/-!
# Mixing the bits of a word

The steps that hash functions mix a word with: exclusive or with a word, or with the
shifted word itself, rotation, multiplication by an odd number and addition.  Each of
them is a bijection of the words, and so is every sequence of them.
-/

namespace MeDiE.Verified.Mix

variable {w : Nat}

instance finite_bitVec : Finite (BitVec w) :=
  Finite.of_injective BitVec.toFin fun _ _ h => BitVec.toFin_inj.mp h

/-- Words are as many as words, so a step that loses nothing reaches everything. -/
theorem bijective_of_injective {f : BitVec w → BitVec w} (h : Function.Injective f) :
    Function.Bijective f :=
  Finite.injective_iff_bijective.mp h

theorem bijective_xor (c : BitVec w) : Function.Bijective fun x : BitVec w => x ^^^ c :=
  bijective_of_injective fun _ _ h => (BitVec.xor_left_inj c).mp h

theorem bijective_add (c : BitVec w) : Function.Bijective fun x : BitVec w => x + c :=
  bijective_of_injective fun _ _ h => (BitVec.add_left_inj c).mp h

/-- Multiplication by a number that has an inverse. -/
theorem bijective_mul {c d : BitVec w} (hcd : c * d = 1#w) :
    Function.Bijective fun x : BitVec w => x * c := by
  apply bijective_of_injective
  intro x y h
  have hmul : x * c * d = y * c * d := congrArg (· * d) h
  rwa [BitVec.mul_assoc, BitVec.mul_assoc, hcd, BitVec.mul_one, BitVec.mul_one] at hmul

/-- From the highest bits down every bit of the word can be read off. -/
theorem bijective_xorShift {s : Nat} (hs : 0 < s) :
    Function.Bijective fun x : BitVec w => x ^^^ x >>> s := by
  apply bijective_of_injective
  intro x y h
  have hbits : ∀ k i, w ≤ i + k → x.getLsbD i = y.getLsbD i := by
    intro k
    induction k with
    | zero =>
        intro i hi
        rw [BitVec.getLsbD_of_ge x i hi, BitVec.getLsbD_of_ge y i hi]
    | succ k ih =>
        intro i hi
        have hbit := congrArg (fun z => z.getLsbD i) h
        simp only [BitVec.getLsbD_xor, BitVec.getLsbD_ushiftRight] at hbit
        rw [ih (s + i) (by omega)] at hbit
        exact Bool.xor_left_inj.mp hbit
  exact BitVec.eq_of_getLsbD_eq fun i _ => hbits w i (Nat.le_add_left w i)

/-- The bits that leave at the top come in at the bottom. -/
theorem bijective_rotate {r : Nat} (hr : r ≤ w) :
    Function.Bijective fun x : BitVec w => x <<< r ||| x >>> (w - r) := by
  apply bijective_of_injective
  intro x y h
  apply BitVec.eq_of_getLsbD_eq
  intro i hi
  by_cases htop : i + r < w
  · have hbit := congrArg (fun z => z.getLsbD (i + r)) h
    simpa [hi, BitVec.getLsbD_shiftLeft, htop, show ¬ i + r < r by omega,
      BitVec.getLsbD_of_ge x (w - r + (i + r)) (by omega),
      BitVec.getLsbD_of_ge y (w - r + (i + r)) (by omega)] using hbit
  · have hbit := congrArg (fun z => z.getLsbD (i + r - w)) h
    simpa [hi, BitVec.getLsbD_shiftLeft, show i + r - w < r by omega,
      show w - r + (i + r - w) = i by omega] using hbit

/-- Two words that a step mixes one into the other. -/
theorem bijective_xor_comp {f : BitVec w → BitVec w} (hf : Function.Bijective f)
    (c : BitVec w) : Function.Bijective fun x => c ^^^ f x := by
  have hcomp := (bijective_xor c).comp hf
  have heq : (fun x => c ^^^ f x) = (fun x => x ^^^ c) ∘ f := by
    funext x
    exact BitVec.xor_comm _ _
  rw [heq]
  exact hcomp

/-- The words that have the remainder `i`. -/
theorem card_toNat_mod {n : Nat} (i : Fin n) :
    Nat.card {x : BitVec w // x.toNat % n = i} =
      2 ^ w / n + if (i : Nat) < 2 ^ w % n then 1 else 0 := by
  have hn : 0 < n := i.pos
  have hmod : ∀ m : Nat, m % n = i ↔ m ≡ i [MOD n] := fun m => by
    rw [Nat.ModEq, Nat.mod_eq_of_lt i.isLt]
  let e : {x : BitVec w // x.toNat % n = i} ≃ {m : Nat // m < 2 ^ w ∧ m ≡ i [MOD n]} :=
    { toFun := fun x => ⟨x.1.toNat, x.1.isLt, (hmod _).mp x.2⟩
      invFun := fun m => ⟨BitVec.ofNatLT m.1 m.2.1, (hmod _).mpr m.2.2⟩
      left_inv := fun x => rfl
      right_inv := fun m => rfl }
  let _ := Nat.CountSet.fintype (fun m => m ≡ i [MOD n]) (2 ^ w)
  rw [Nat.card_congr e, Nat.card_eq_fintype_card, ← Nat.count_eq_card_fintype,
    Nat.count_modEq_card _ hn, Nat.mod_eq_of_lt i.isLt]

end MeDiE.Verified.Mix
