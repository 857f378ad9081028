import Mathlib.Tactic

/-!
# `cut` and `load_args_sort`

The sender sorts the entries it has to send by server, with Hoare's partition.
The two arrays of `struct transfert_load_args` are always changed together and
are one list of pairs here.  A read outside of the list is `none`, and so is
running out of fuel.
-/

namespace MeDiE.Server

variable {S ι : Type} [LT S] [DecidableLT S]

/-- `do j--; while (servers[j] > pivot)`. -/
def cutDown (list : List (S × ι)) (pivot : S) : Nat → Option Nat
  | 0 => none
  | j + 1 =>
      match list[j]? with
      | none => none
      | some x => if pivot < x.1 then cutDown list pivot j else some j

/-- `do i++; while (servers[i] < pivot)`, where `i` is the first index read. -/
def cutUp (list : List (S × ι)) (pivot : S) : Nat → Nat → Option Nat
  | 0, _ => none
  | fuel + 1, i =>
      match list[i]? with
      | none => none
      | some x => if x.1 < pivot then cutUp list pivot fuel (i + 1) else some i

/-- The `while (1)` loop of `cut`; `i` is one more than the C variable. -/
def cutLoop (pivot : S) : Nat → List (S × ι) → Nat → Nat → Option (Nat × List (S × ι))
  | 0, _, _, _ => none
  | fuel + 1, list, i, j =>
      match cutDown list pivot j, cutUp list pivot list.length i with
      | some j, some i =>
          if i < j then cutLoop pivot fuel (list.swap i j) (i + 1) j
          else some (j, list)
      | _, _ => none

/-- `cut`. -/
def cut (list : List (S × ι)) (p r : Nat) : Option (Nat × List (S × ι)) :=
  match list[p]? with
  | none => none
  | some x => cutLoop x.1 (list.length + 1) list p (r + 1)

/-- `load_args_sort`. -/
def loadArgsSort : Nat → List (S × ι) → Nat → Nat → Option (List (S × ι))
  | 0, _, _, _ => none
  | fuel + 1, list, p, r =>
      if p < r then
        match cut list p r with
        | none => none
        | some (q, list) =>
            match loadArgsSort fuel list p q with
            | none => none
            | some list => loadArgsSort fuel list (q + 1) r
      else some list

/-- The call in `thread_load_sender`. -/
def sortToSend (toSend : List (S × ι)) : Option (List (S × ι)) :=
  loadArgsSort (toSend.length + 1) toSend 0 (toSend.length - 1)

private theorem cutLoop_perm {pivot : S} {fuel : Nat} {list list' : List (S × ι)}
    {i j q : Nat} (h : cutLoop pivot fuel list i j = some (q, list')) :
    list'.Perm list := by
  induction fuel generalizing list i j with
  | zero => cases h
  | succ fuel ih =>
      rw [cutLoop] at h
      split at h
      · split at h
        · exact (ih h).trans (List.swap_perm _ _ _)
        · cases h
          exact List.Perm.refl _
      · cases h

theorem loadArgsSort_perm {fuel : Nat} {list list' : List (S × ι)} {p r : Nat}
    (h : loadArgsSort fuel list p r = some list') : list'.Perm list := by
  induction fuel generalizing list list' p r with
  | zero => cases h
  | succ fuel ih =>
      rw [loadArgsSort] at h
      split at h
      · split at h
        · cases h
        · rename_i hcut
          rw [cut] at hcut
          split at hcut
          · cases hcut
          · split at h
            · cases h
            · rename_i hleft
              exact (ih h).trans ((ih hleft).trans (cutLoop_perm hcut))
      · cases h
        exact List.Perm.refl _

/-- What is sent is what was to be sent. -/
theorem sortToSend_perm {toSend list : List (S × ι)}
    (h : sortToSend toSend = some list) : list.Perm toSend :=
  loadArgsSort_perm h

example : sortToSend [(2, 'a'), (0, 'b'), (1, 'c'), (0, 'd')] =
    some [(0, 'b'), (0, 'd'), (1, 'c'), (2, 'a')] := by decide

end MeDiE.Server
