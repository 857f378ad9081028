import Mathlib.Tactic

/-!
# Histories of versioned assignments

An assignment gives each index an owner and a version.  In a history of
assignments the version of an index is raised by one exactly when its owner
changes.  Then versions never decrease along the history, and equal versions of
an index have equal owners: whoever knows the version knows the owner.
-/

namespace MeDiE.Verified.Versions

variable {T ι σ : Type} (owner : T → ι → σ) (version : T → ι → Nat)

/-- The version is raised by one exactly where the owner changes. -/
def Follows (t t' : T) : Prop :=
  ∀ e, (owner t e = owner t' e → version t' e = version t e) ∧
    (owner t e ≠ owner t' e → version t' e = version t e + 1)

/-- Versions do not decrease, and equal versions have equal owners. -/
def Before (t t' : T) : Prop :=
  ∀ e, version t e ≤ version t' e ∧
    (version t e = version t' e → owner t e = owner t' e)

variable {owner version}

theorem Follows.before {t t' : T} (h : Follows owner version t t') :
    Before owner version t t' := by
  intro e
  by_cases ho : owner t e = owner t' e
  · exact ⟨((h e).1 ho).ge, fun _ => ho⟩
  · have hv := (h e).2 ho
    constructor <;> omega

/-- The version changes exactly when the owner does. -/
theorem Follows.version_eq_iff {t t' : T} (h : Follows owner version t t') (e : ι) :
    version t e = version t' e ↔ owner t e = owner t' e := by
  constructor
  · exact (h.before e).2
  · exact fun ho => ((h e).1 ho).symm

theorem Before.trans {t t' t'' : T} (h : Before owner version t t')
    (h' : Before owner version t' t'') : Before owner version t t'' := by
  intro e
  have hle := (h e).1
  have hle' := (h' e).1
  constructor
  · omega
  · intro heq
    rw [(h e).2 (by omega), (h' e).2 (by omega)]

theorem pairwise_before {l : List T} (h : l.IsChain (Follows owner version)) :
    l.Pairwise (Before owner version) := by
  have : Trans (Before owner version) (Before owner version) (Before owner version) :=
    ⟨Before.trans⟩
  exact (h.imp fun _ _ => Follows.before).pairwise

/-- A version is raised by one at a time, so it is no larger than the history is long. -/
theorem version_le {t : T} {l : List T} (h : (t :: l).IsChain (Follows owner version))
    {t' : T} (ht' : t' ∈ t :: l) (e : ι) : version t' e ≤ version t e + l.length := by
  induction l generalizing t with
  | nil =>
      rw [List.mem_singleton.mp ht']
      exact Nat.le_refl _
  | cons u l ih =>
      obtain ⟨hfollows, h⟩ := List.isChain_cons_cons.mp h
      rcases List.mem_cons.mp ht' with rfl | ht'
      · exact Nat.le_add_right _ _
      · have hle := ih h ht'
        have hnext : version u e ≤ version t e + 1 := by
          by_cases ho : owner t e = owner u e
          · exact ((hfollows e).1 ho).le.trans (Nat.le_succ _)
          · exact ((hfollows e).2 ho).le
        rw [List.length_cons]
        omega

/-- A version identifies the owner. -/
theorem owner_eq {l : List T} (h : l.IsChain (Follows owner version)) {t t' : T}
    (ht : t ∈ l) (ht' : t' ∈ l) {e : ι} (heq : version t e = version t' e) :
    owner t e = owner t' e := by
  have hpair := pairwise_before h
  obtain ⟨i, hi, rfl⟩ := List.getElem_of_mem ht
  obtain ⟨j, hj, rfl⟩ := List.getElem_of_mem ht'
  rw [List.pairwise_iff_getElem] at hpair
  rcases Nat.lt_trichotomy i j with hij | hij | hij
  · exact (hpair i j hi hj hij e).2 heq
  · subst hij
    rfl
  · exact ((hpair j i hj hi hij e).2 heq.symm).symm

end MeDiE.Verified.Versions
