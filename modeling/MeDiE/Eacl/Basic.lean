import Mathlib.Tactic

/-!
# Entry access lists

A server counts the accesses to every entry and, once per epoch, computes from
the counts an access index (`sai`) per entry and the sum of the indices.  The
program has two such lists, `eacl_indedh.c` and `eacl_windowed.c`, behind the
same functions; a server is modelled over either of them.

Several threads use a list at a time and no lock is taken.  The loop of
`eacl_calculate_sai` reads the old values of an entry, writes its new index and adds it
to the load, and whatever another thread does may come in between; so these are functions
of their own here, and `calculateSai` is the loop when nothing comes in between.
-/

namespace MeDiE

/-- The functions of `eacl_*.h`.  Those after `readLoadLvl` are the parts of the loop in
`eacl_calculate_sai`: `load_lvl = 0`, the two values that go into the index of an entry,
the assignment to `sai[i]`, and `load_lvl += sai[i]`. -/
class Eacl (A : Type) (n : outParam Nat) where
  eaclInit : A
  incrAccess : A → Fin n → A
  resetAccess : A → A
  resetAllEntry : A → Fin n → A
  calculateSai : A → A
  sai : A → Fin n → Nat
  readLoadLvl : A → Nat
  clearLoad : A → A
  oldIndex : A → Fin n → Nat
  accessCount : A → Fin n → Nat
  setSai : A → Fin n → Nat → A
  addLoad : A → Fin n → A
  calculateSai_eq : ∀ a, calculateSai a =
    (List.finRange n).foldl
      (fun a i => addLoad (setSai a i ((oldIndex a i + accessCount a i) / 2)) i) (clearLoad a)

/-- What the functions do to the index and the load: only `eacl_calculate_sai`
computes them, and only `eacl_reset_all_entry` changes an index beside it. -/
class LawfulEacl (A : Type) {n : Nat} [Eacl A n] : Prop where
  sai_incrAccess : ∀ (a : A) (e : Fin n), Eacl.sai (Eacl.incrAccess a e) = Eacl.sai a
  load_incrAccess : ∀ (a : A) (e : Fin n),
    Eacl.readLoadLvl (Eacl.incrAccess a e) = Eacl.readLoadLvl a
  sai_resetAccess : ∀ a : A, Eacl.sai (Eacl.resetAccess a) = Eacl.sai a
  load_resetAccess : ∀ a : A, Eacl.readLoadLvl (Eacl.resetAccess a) = Eacl.readLoadLvl a
  sai_resetAllEntry : ∀ (a : A) (e : Fin n),
    Eacl.sai (Eacl.resetAllEntry a e) = Function.update (Eacl.sai a) e 0
  load_resetAllEntry : ∀ (a : A) (e : Fin n),
    Eacl.readLoadLvl (Eacl.resetAllEntry a e) = Eacl.readLoadLvl a

/-- `load_lvl += sai[i]` over all entries, in `uint32_t`. -/
def sumSai {n : Nat} (sai : Fin n → Nat) : Nat :=
  (List.finRange n).foldl (fun loadLvl i => (loadLvl + sai i) % 2 ^ 32) 0

/-- A bound on all values of an array that the new value keeps. -/
theorem update_lt {n bound value : Nat} {values : Fin n → Nat} (h : ∀ i, values i < bound)
    (hvalue : value < bound) (index : Fin n) :
    ∀ i, Function.update values index value i < bound :=
  (Function.forall_update_iff values fun _ value => value < bound).mpr
    ⟨hvalue, fun i _ => h i⟩

/-- A loop that has put the new values into the cells of the list puts one more in. -/
theorem update_fill {n : Nat} (values next : Fin n → Nat) (l : List (Fin n)) (i : Fin n) :
    Function.update (fun j => if j ∈ l then next j else values j) i (next i) =
      fun j => if j ∈ l ++ [i] then next j else values j := by
  funext j
  by_cases hj : j = i
  · subst hj
    simp
  · simp [hj]

end MeDiE
