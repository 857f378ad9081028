import Mathlib.Tactic

/-!
# Arrays with checked indices

A C array is the list of its cells.  An index is any integer, as it may have been computed
or read from another array; an access outside of the array is `none`, so that a program
written with these two operations returns `some` exactly when all its accesses are inside.
-/

namespace MeDiE.Verified.Cells

variable {α : Type}

/-- `a[i]` as a value. -/
def readCell (cells : List α) (i : Int) : Option α :=
  if 0 ≤ i then cells[i.toNat]? else none

/-- `a[i] = x`. -/
def writeCell (cells : List α) (i : Int) (x : α) : Option (List α) :=
  if 0 ≤ i ∧ i.toNat < cells.length then some (cells.set i.toNat x) else none

@[simp] theorem readCell_natCast (cells : List α) (i : Nat) :
    readCell cells i = cells[i]? := by
  simp [readCell]

theorem writeCell_natCast {cells : List α} {i : Nat} (hi : i < cells.length) (x : α) :
    writeCell cells i x = some (cells.set i x) := by
  simp [writeCell, hi]

/-! ## Accesses inside and outside -/

theorem exists_readCell {cells : List α} {i : Int} (hpos : 0 ≤ i) (hlt : i < cells.length) :
    ∃ x, readCell cells i = some x := by
  have hi : i.toNat < cells.length := by omega
  exact ⟨cells[i.toNat], by rw [readCell, if_pos hpos, List.getElem?_eq_getElem hi]⟩

theorem exists_writeCell {cells : List α} {i : Int} (hpos : 0 ≤ i) (hlt : i < cells.length)
    (x : α) : ∃ cells', writeCell cells i x = some cells' :=
  ⟨_, if_pos ⟨hpos, by omega⟩⟩

theorem writeCell_eq_none {cells : List α} {i : Int} (hle : cells.length ≤ i) (x : α) :
    writeCell cells i x = none :=
  if_neg fun h => by omega

theorem length_writeCell {cells cells' : List α} {i : Int} {x : α}
    (h : writeCell cells i x = some cells') : cells'.length = cells.length := by
  unfold writeCell at h
  split at h
  · cases h
    exact List.length_set
  · cases h

/-- A write changes the one cell. -/
theorem readCell_writeCell {cells cells' : List α} {i : Int} {x : α}
    (h : writeCell cells i x = some cells') (j : Int) :
    readCell cells' j = if j = i then some x else readCell cells j := by
  unfold writeCell at h
  split at h
  · rename_i hi
    cases h
    unfold readCell
    by_cases hj : j = i
    · subst hj
      rw [if_pos rfl, if_pos hi.1, List.getElem?_set_self hi.2]
    · rw [if_neg hj]
      split
      · exact List.getElem?_set_ne (by omega)
      · rfl
  · cases h

/-! ## The cell behind a prefix -/

theorem readCell_append (before after : List α) (x : α) :
    readCell (before ++ x :: after) before.length = some x := by
  rw [readCell_natCast, List.getElem?_append_right (le_refl _), Nat.sub_self,
    List.getElem?_cons_zero]

theorem writeCell_append (before after : List α) (x y : α) :
    writeCell (before ++ x :: after) before.length y = some (before ++ y :: after) := by
  rw [writeCell_natCast (by simp), List.set_append_right _ _ (le_refl _), Nat.sub_self,
    List.set_cons_zero]

/-! ## The array of a function -/

theorem readCell_ofFn {k : Nat} (f : Fin k → α) (i : Fin k) :
    readCell (List.ofFn f) (i : Nat) = some (f i) := by
  rw [readCell_natCast, List.getElem?_eq_getElem (by simp), List.getElem_ofFn]

theorem writeCell_ofFn {k : Nat} (f : Fin k → α) (i : Fin k) (x : α) :
    writeCell (List.ofFn f) (i : Nat) x = some (List.ofFn (Function.update f i x)) := by
  rw [writeCell_natCast (by simp)]
  refine congrArg some (List.ext_getElem (by simp) fun j hj _ => ?_)
  rw [List.getElem_set, List.getElem_ofFn, List.getElem_ofFn, Function.update_apply]
  simp [Fin.ext_iff, eq_comm]

/-- An array whose cells are known one by one is the array of that function. -/
theorem eq_ofFn {k : Nat} {cells : List α} {f : Fin k → α} (hlen : cells.length = k)
    (hread : ∀ i : Fin k, readCell cells (i : Nat) = some (f i)) : cells = List.ofFn f := by
  refine List.ext_getElem (by simpa using hlen) fun j hj hj' => ?_
  have hcell := hread ⟨j, hlen ▸ hj⟩
  rw [readCell_natCast, List.getElem?_eq_getElem hj] at hcell
  rw [List.getElem_ofFn]
  exact Option.some.inj hcell

/-! ## Loops that stay inside -/

/-- A loop over a list ends with its invariant, which speaks of the elements that are done,
when every round keeps it. -/
theorem exists_foldlM {σ ι : Type} {f : σ → ι → Option σ} {R : List ι → σ → Prop}
    (list : List ι)
    (hround : ∀ done i rest, list = done ++ i :: rest → ∀ s, R done s →
      ∃ s', f s i = some s' ∧ R (done ++ [i]) s')
    (s : σ) (h : R [] s) : ∃ s', list.foldlM f s = some s' ∧ R list s' := by
  have hloop : ∀ done rest s, list = done ++ rest → R done s →
      ∃ s', rest.foldlM f s = some s' ∧ R list s' := by
    intro done rest
    induction rest generalizing done with
    | nil => exact fun s hlist h => ⟨s, rfl, by rwa [hlist, List.append_nil]⟩
    | cons i rest ih =>
        intro s hlist h
        obtain ⟨s', hs', h'⟩ := hround done i rest hlist s h
        obtain ⟨s'', hs'', h''⟩ := ih (done ++ [i]) s' (by simp [hlist]) h'
        refine ⟨s'', ?_, h''⟩
        rw [List.foldlM_cons, hs']
        exact hs''
  exact hloop [] list s rfl h

end MeDiE.Verified.Cells
