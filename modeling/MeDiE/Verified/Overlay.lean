import Mathlib.Tactic

/-!
# Overlays of partial reports

A collector keeps one value per index and lays reports over it: where a report is
nonzero its value replaces the one before, where it is zero nothing changes.
Reports that are nonzero at different indices may come in any order, and what is
left at an index is the value of the one report that has one, or what was there
before.
-/

namespace MeDiE.Verified.Overlay

variable {ι α : Type} [Zero α] [DecidableEq α]

/-- Lay `report` over `base`. -/
def overlay (base report : ι → α) (i : ι) : α :=
  if report i ≠ 0 then report i else base i

/-- No index has a value in both reports. -/
def Apart (f g : ι → α) : Prop := ∀ i, f i = 0 ∨ g i = 0

omit [DecidableEq α] in
theorem Apart.symm {f g : ι → α} (h : Apart f g) : Apart g f := fun i => (h i).symm

theorem overlay_of_ne {base report : ι → α} {i : ι} (h : report i ≠ 0) :
    overlay base report i = report i := if_pos h

theorem overlay_of_eq {base report : ι → α} {i : ι} (h : report i = 0) :
    overlay base report i = base i := if_neg (not_not.mpr h)

/-- Reports that are apart may change places. -/
theorem overlay_comm {f g : ι → α} (h : Apart f g) (base : ι → α) :
    overlay (overlay base f) g = overlay (overlay base g) f := by
  funext i
  rcases h i with hf | hg
  · have hleft : overlay (overlay base g) f i = overlay base g i := overlay_of_eq hf
    rw [hleft]
    by_cases hg : g i = 0
    · rw [overlay_of_eq hg, overlay_of_eq hf, overlay_of_eq hg]
    · rw [overlay_of_ne hg, overlay_of_ne hg]
  · have hright : overlay (overlay base f) g i = overlay base f i := overlay_of_eq hg
    rw [hright]
    by_cases hf : f i = 0
    · rw [overlay_of_eq hf, overlay_of_eq hf, overlay_of_eq hg]
    · rw [overlay_of_ne hf, overlay_of_ne hf]

/-- Where no report has a value, the old one stays. -/
theorem foldl_overlay_of_eq {reports : List (ι → α)} {i : ι}
    (h : ∀ f ∈ reports, f i = 0) (base : ι → α) : reports.foldl overlay base i = base i := by
  induction reports generalizing base with
  | nil => rfl
  | cons f reports ih =>
      rw [List.foldl_cons, ih fun g hg => h g (List.mem_cons_of_mem _ hg),
        overlay_of_eq (h f List.mem_cons_self)]

/-- Where a report has a value and all that have one agree, it is what is left. -/
theorem foldl_overlay_of_ne {reports : List (ι → α)} {i : ι} {v : α}
    (hv : ∀ f ∈ reports, f i ≠ 0 → f i = v) {base : ι → α}
    (h : base i = v ∨ ∃ f ∈ reports, f i ≠ 0) : reports.foldl overlay base i = v := by
  induction reports generalizing base with
  | nil => simpa using h
  | cons f reports ih =>
      apply ih fun g hg => hv g (List.mem_cons_of_mem _ hg)
      by_cases hf : f i = 0
      · rw [overlay_of_eq hf]
        rcases h with hbase | ⟨g, hg, hne⟩
        · exact Or.inl hbase
        · have hgf : g ≠ f := fun heq => hne (heq ▸ hf)
          exact Or.inr ⟨g, (List.mem_cons.mp hg).resolve_left hgf, hne⟩
      · rw [overlay_of_ne hf]
        exact Or.inl (hv f List.mem_cons_self hf)

end MeDiE.Verified.Overlay
