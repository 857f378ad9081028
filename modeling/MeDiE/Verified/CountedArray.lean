import MeDiE.Verified.Cells
import MeDiE.Verified.SwapRemove

/-!
# Arrays with a counter of used cells

`a[size] = x; size++;` and `a[i] = a[size - 1]; size--;` on an array of fixed length: the
first `size` cells hold a list, and what is behind them does not matter.  An operation on
the list is inside of the array as long as there is room for its result.
-/

namespace MeDiE.Verified.CountedArray

open MeDiE.Verified.Cells
open MeDiE.Verified.SwapRemove

variable {α : Type} {cells list : List α} {size : Int}

/-- The first `size` cells are those of `list`. -/
structure Counted (cells : List α) (size : Int) (list : List α) : Prop where
  size_eq : size = list.length
  front : ∃ rest, cells = list ++ rest

/-- `a[i] = a[size - 1]`. -/
def fillGap (cells : List α) (size i : Int) : Option (List α) := do
  let last ← readCell cells (size - 1)
  writeCell cells i last

namespace Counted

theorem nil (cells : List α) : Counted cells 0 [] where
  size_eq := rfl
  front := ⟨cells, rfl⟩

theorem length_le (h : Counted cells size list) : list.length ≤ cells.length := by
  obtain ⟨rest, rfl⟩ := h.front
  simp

theorem readCell (h : Counted cells size list) {i : Nat} {x : α} (hget : list[i]? = some x) :
    readCell cells i = some x := by
  obtain ⟨rest, rfl⟩ := h.front
  rw [readCell_natCast]
  exact List.getElem?_append_left (List.getElem?_eq_some_iff.mp hget).1 ▸ hget

theorem push (h : Counted cells size list) (hroom : list.length < cells.length) (x : α) :
    ∃ cells', writeCell cells size x = some cells' ∧ cells'.length = cells.length ∧
      Counted cells' (size + 1) (list ++ [x]) := by
  obtain ⟨rest, rfl⟩ := h.front
  obtain _ | ⟨y, rest⟩ := rest
  · simp at hroom
  refine ⟨list ++ x :: rest, ?_, by simp, ?_⟩
  · rw [h.size_eq]
    exact writeCell_append list rest y x
  · exact
      { size_eq := by simp [h.size_eq]
        front := ⟨rest, by simp⟩ }

theorem fillGap (h : Counted cells size list) {i : Nat} (hi : i < list.length) :
    ∃ cells', fillGap cells size i = some cells' ∧ cells'.length = cells.length ∧
      Counted cells' (size - 1) (swapRemove list i) := by
  have hlen := h.length_le
  have hsize : size - 1 = (list.length - 1 : Nat) := by
    rw [h.size_eq]
    omega
  obtain ⟨last, hlast⟩ : ∃ last, list.getLast? = some last :=
    Option.isSome_iff_exists.mp (by grind)
  have hread : list[list.length - 1]? = some last := by
    rw [← List.getLast?_eq_getElem?, hlast]
  obtain ⟨rest, hcells⟩ := h.front
  have hset : (list.set i last).getLast? = some last := by
    grind
  refine ⟨cells.set i last, ?_, List.length_set, ?_⟩
  · rw [CountedArray.fillGap, hsize, h.readCell hread]
    exact writeCell_natCast (by omega) last
  · refine { size_eq := by rw [hsize, length_swapRemove], front := ⟨last :: rest, ?_⟩ }
    rw [swapRemove, hlast, hcells, List.set_append_left _ _ hi,
      ← List.dropLast_append_getLast? last hset]
    simp

end Counted

end MeDiE.Verified.CountedArray
