import Mathlib.Tactic

/-!
# `generic_storage.c`

A file per key.  Opening a file for `put` fails when it exists, opening it for
`get` or `update` and removing it fail when it does not, and nothing else fails.
The keys are of any type `K`: those of the clients, or names of files.
-/

namespace MeDiE.Storage

/-- A key as clients use it: a C string that is not empty and has no comma in it,
the separator of the names in a packet. -/
structure Key where
  chars : List Char
  chars_ne : chars ≠ []
  noComma : ',' ∉ chars
  deriving DecidableEq

/-- A value: the bytes of a C string. -/
structure Data where
  bytes : List UInt8
  noNul : 0 ∉ bytes
  deriving DecidableEq

/-- The value without a byte. -/
def Data.empty : Data := ⟨[], List.not_mem_nil⟩

/-- "v" -/
def Data.v : Data := ⟨[118], by decide⟩

/-- The directory `STORE` of a server. -/
abbrev Store := Key → Option Data

variable {K : Type}

/-- `generic_put`, or `none` for -1. -/
def genericPut [DecidableEq K] (store : K → Option Data) (key : K) (value : Data) :
    Option (K → Option Data) :=
  match store key with
  | some _ => none
  | none => some (Function.update store key (some value))

/-- What `generic_get` comes to: `NULL`, the value, or a write behind its buffer. -/
inductive Got
  | null
  | value (data : Data)
  | overrun
  deriving DecidableEq

/-- `generic_get`.  The buffer is of ten bytes, so a value has room for its end if it
is shorter; with a longer one `data[rc]` is behind the buffer. -/
def genericGet (store : K → Option Data) (key : K) : Got :=
  match store key with
  | none => .null
  | some data => if data.bytes.length < 10 then .value data else .overrun

/-- `generic_update`, or `none` for -1. -/
def genericUpdate [DecidableEq K] (store : K → Option Data) (key : K) (value : Data) :
    Option (K → Option Data) :=
  match store key with
  | some _ => some (Function.update store key (some value))
  | none => none

/-- `generic_del`, or `none` for -1. -/
def genericDel [DecidableEq K] (store : K → Option Data) (key : K) :
    Option (K → Option Data) :=
  match store key with
  | some _ => some (Function.update store key none)
  | none => none

section Cases

variable {store store' : K → Option Data} {key : K} {value : Data}

theorem genericPut_eq_some [DecidableEq K] :
    genericPut store key value = some store' ↔
      store key = none ∧ store' = Function.update store key (some value) := by
  unfold genericPut
  cases store key <;> simp [eq_comm]

theorem genericUpdate_eq_some [DecidableEq K] :
    genericUpdate store key value = some store' ↔
      store key ≠ none ∧ store' = Function.update store key (some value) := by
  unfold genericUpdate
  cases store key <;> simp [eq_comm]

theorem genericDel_eq_some [DecidableEq K] :
    genericDel store key = some store' ↔
      store key ≠ none ∧ store' = Function.update store key none := by
  unfold genericDel
  cases store key <;> simp [eq_comm]

theorem genericGet_eq_null : genericGet store key = .null ↔ store key = none := by
  unfold genericGet
  cases store key with
  | none => simp
  | some data => by_cases h : data.bytes.length < 10 <;> simp [h]

theorem genericGet_eq_value :
    genericGet store key = .value value ↔
      store key = some value ∧ value.bytes.length < 10 := by
  unfold genericGet
  cases store key with
  | none => simp
  | some data =>
      by_cases h : data.bytes.length < 10
      · simp only [h, if_true, Got.value.injEq, Option.some.injEq]
        constructor
        · rintro rfl
          exact ⟨rfl, h⟩
        · exact And.left
      · simp only [h, if_false, reduceCtorEq, Option.some.injEq, false_iff, not_and]
        rintro rfl
        exact h

theorem genericGet_eq_overrun :
    genericGet store key = .overrun ↔ ∃ data, store key = some data ∧ 10 ≤ data.bytes.length := by
  unfold genericGet
  cases store key with
  | none => simp
  | some data =>
      by_cases h : data.bytes.length < 10
      · simp [h]
      · simpa [h] using Nat.le_of_not_lt h

end Cases

end MeDiE.Storage
