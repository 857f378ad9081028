import Mathlib.Tactic

/-!
# The metadata lookup table

One row per entry: the server responsible for the entry, the version number of
the row, and whether the entry is being transferred.  The manager, every server
and every client hold a table of their own.  The operations take an index of
the table, so the index checks of `mlt.c` have already succeeded; server
numbers are of any type `S`.

Versions are counted without a bound.  The column `n_ver` holds `uint32_t`s:
`Mlt.wrap` is what it holds of them.  A function that only copies versions and
adds to them may be computed without a bound and wrapped afterwards; where
versions are compared, the two agree as long as no version reaches `2 ^ 32`.
-/

namespace MeDiE.Table

/-- `struct mlt`, a column per field.  The C column `state` holds 0 or 1. -/
@[ext] structure Mlt (n : Nat) (S : Type) where
  idSrv : Fin n → S
  nVer : Fin n → Nat
  state : Fin n → Bool

/-- `mlt_init`: rows are dealt out modulo the number of servers. -/
def mltInit (n nb : Nat) [NeZero nb] : Mlt n (Fin nb) where
  idSrv e := Fin.ofNat nb e
  nVer _ := 0
  state _ := false

variable {n : Nat} {S : Type}

namespace Mlt

/-- `mlt_update_entry` at an index of the table. -/
def updateEntry (self : Mlt n S) (e : Fin n) (srv : S) (ver : Nat)
    (state : Bool) : Mlt n S where
  idSrv := Function.update self.idSrv e srv
  nVer := Function.update self.nVer e ver
  state := Function.update self.state e state

/-- `mlt_update_state` at an index of the table. -/
def updateState (self : Mlt n S) (e : Fin n) (state : Bool) : Mlt n S :=
  { self with state := Function.update self.state e state }

/-- The table as the column `n_ver` of `uint32_t`s holds it. -/
def wrap (self : Mlt n S) : Mlt n S :=
  { self with nVer := fun e => self.nVer e % 2 ^ 32 }

@[simp] theorem wrap_idSrv (self : Mlt n S) : self.wrap.idSrv = self.idSrv := rfl

@[simp] theorem wrap_nVer (self : Mlt n S) (e : Fin n) :
    self.wrap.nVer e = self.nVer e % 2 ^ 32 := rfl

@[simp] theorem wrap_state (self : Mlt n S) : self.wrap.state = self.state := rfl

/-- A table whose versions fit in the column is held as it is. -/
theorem wrap_eq_self {self : Mlt n S} (h : ∀ e, self.nVer e < 2 ^ 32) : self.wrap = self := by
  ext e
  · rfl
  · exact Nat.mod_eq_of_lt (h e)
  · rfl

@[simp] theorem updateEntry_idSrv (self : Mlt n S) (e i : Fin n) (srv : S)
    (ver : Nat) (state : Bool) :
    (self.updateEntry e srv ver state).idSrv i =
      if i = e then srv else self.idSrv i :=
  Function.update_apply _ _ _ _

@[simp] theorem updateEntry_nVer (self : Mlt n S) (e i : Fin n) (srv : S)
    (ver : Nat) (state : Bool) :
    (self.updateEntry e srv ver state).nVer i =
      if i = e then ver else self.nVer i :=
  Function.update_apply _ _ _ _

@[simp] theorem updateEntry_state (self : Mlt n S) (e i : Fin n) (srv : S)
    (ver : Nat) (state : Bool) :
    (self.updateEntry e srv ver state).state i =
      if i = e then state else self.state i :=
  Function.update_apply _ _ _ _

@[simp] theorem updateState_idSrv (self : Mlt n S) (e : Fin n) (state : Bool) :
    (self.updateState e state).idSrv = self.idSrv := rfl

@[simp] theorem updateState_nVer (self : Mlt n S) (e : Fin n) (state : Bool) :
    (self.updateState e state).nVer = self.nVer := rfl

@[simp] theorem updateState_state (self : Mlt n S) (e i : Fin n) (state : Bool) :
    (self.updateState e state).state i = if i = e then state else self.state i :=
  Function.update_apply _ _ _ _

end Mlt

end MeDiE.Table
