import MeDiE.Table.Mlt
import MeDiE.Verified.Cells

/-!
# `mlt.c` with its checks

The table as the three columns of `struct mlt`, and its operations with the checks they make
on their own arguments.  Indices and values are `int`s that come from packets and from JSON;
the columns hold `uint32_t`.  Pointers are not null, memory is available, and the lock is
always granted.  A write outside of a column is `none`.
-/

namespace MeDiE.Table

open MeDiE.Verified.Cells

/-- `struct mlt`. -/
structure MltArray where
  idSrv : List UInt32
  nVer : List UInt32
  state : List UInt32
  size : UInt32
deriving DecidableEq

/-- What `mlt_get_entry` stores through its pointers. -/
structure Row where
  srv : Int32
  ver : Int32
  state : Int32
deriving DecidableEq

/-- The end of a call: its return code, the table, and the row that was stored. -/
structure Returned where
  rc : Int
  table : MltArray
  row : Option Row
deriving DecidableEq

/-- `-EINVAL`. -/
def einval : Int := -22

/-- `-EOVERFLOW`. -/
def eoverflow : Int := -75

/-- `mlt_init`. -/
def mltInitArray (size nbSrv : Int32) : Except Int MltArray :=
  if size ≤ 0 ∨ nbSrv ≤ 0 then .error einval
  else .ok {
    idSrv := (List.range size.toInt.toNat).map fun i => (Int32.ofNat i % nbSrv).toUInt32
    nVer := List.replicate size.toInt.toNat 0
    state := List.replicate size.toInt.toNat 0
    size := size.toUInt32 }

namespace MltArray

/-- `mlt_update_state`. -/
def mltUpdateState (self : MltArray) (mltIdx state : Int32) : Option Returned :=
  if mltIdx < 0 ∨ (state ≠ 0 ∧ state ≠ 1) then some ⟨einval, self, none⟩
  else do
    let states ← writeCell self.state mltIdx.toInt state.toUInt32
    some ⟨0, { self with state := states }, none⟩

/-- `mlt_update_entry`.  The comparison with `size` is unsigned. -/
def mltUpdateEntry (self : MltArray) (mltIdx srvIdx ver state : Int32) : Option Returned :=
  if mltIdx < 0 ∨ srvIdx < 0 ∨ (state ≠ 0 ∧ state ≠ 1) then some ⟨einval, self, none⟩
  else if self.size ≤ mltIdx.toUInt32 then some ⟨eoverflow, self, none⟩
  else do
    let servers ← writeCell self.idSrv mltIdx.toInt srvIdx.toUInt32
    let versions ← writeCell self.nVer mltIdx.toInt ver.toUInt32
    let states ← writeCell self.state mltIdx.toInt state.toUInt32
    some ⟨0, { self with idSrv := servers, nVer := versions, state := states }, none⟩

/-- The three cells of a row, read as `int`s. -/
def row (self : MltArray) (mltIdx : Int32) : Option Row := do
  let srv ← readCell self.idSrv mltIdx.toInt
  let ver ← readCell self.nVer mltIdx.toInt
  let state ← readCell self.state mltIdx.toInt
  some ⟨srv.toInt32, ver.toInt32, state.toInt32⟩

/-- `mlt_get_entry`. -/
def mltGetEntry (self : MltArray) (mltIdx : Int32) : Option Returned :=
  if mltIdx < 0 then some ⟨einval, self, none⟩
  else if self.size ≤ mltIdx.toUInt32 then some ⟨eoverflow, self, none⟩
  else do
    let row ← self.row mltIdx
    some ⟨0, self, some row⟩

end MltArray

/-- A call on the table. -/
inductive MltCall where
  | updateState (mltIdx state : Int32)
  | updateEntry (mltIdx srvIdx ver state : Int32)
  | getEntry (mltIdx : Int32)
deriving DecidableEq

namespace MltCall

/-- The row a call addresses. -/
def mltIdx : MltCall → Int32
  | updateState mltIdx _ => mltIdx
  | updateEntry mltIdx _ _ _ => mltIdx
  | getEntry mltIdx => mltIdx

/-- The arguments beside the index are accepted. -/
def ArgsOk : MltCall → Prop
  | updateState _ state => state = 0 ∨ state = 1
  | updateEntry _ srvIdx _ state => 0 ≤ srvIdx ∧ (state = 0 ∨ state = 1)
  | getEntry _ => True

/-- All arguments are those of a call that is to succeed. -/
def Valid (size : Int32) (call : MltCall) : Prop :=
  0 ≤ call.mltIdx ∧ call.mltIdx < size ∧ call.ArgsOk

instance (call : MltCall) : Decidable call.ArgsOk :=
  match call with
  | updateState _ state => inferInstanceAs (Decidable (state = 0 ∨ state = 1))
  | updateEntry _ srvIdx _ state =>
      inferInstanceAs (Decidable (0 ≤ srvIdx ∧ (state = 0 ∨ state = 1)))
  | getEntry _ => inferInstanceAs (Decidable True)

instance (size : Int32) (call : MltCall) : Decidable (call.Valid size) :=
  inferInstanceAs (Decidable (0 ≤ call.mltIdx ∧ call.mltIdx < size ∧ call.ArgsOk))

/-- `mlt_update_state` at an index behind the table. -/
def StatePastEnd (size : Int32) : MltCall → Prop
  | updateState mltIdx state => size ≤ mltIdx ∧ (state = 0 ∨ state = 1)
  | _ => False

end MltCall

namespace MltArray

/-- Carry out a call. -/
def call (self : MltArray) : MltCall → Option Returned
  | .updateState mltIdx state => self.mltUpdateState mltIdx state
  | .updateEntry mltIdx srvIdx ver state => self.mltUpdateEntry mltIdx srvIdx ver state
  | .getEntry mltIdx => self.mltGetEntry mltIdx

/-- The table after a sequence of calls. -/
def run (self : MltArray) (calls : List MltCall) : Option MltArray :=
  calls.foldlM (fun table c => (table.call c).map Returned.table) self

end MltArray

/-! ## The row that was written last -/

/-- What a call makes of the row at index `i`. -/
def Row.after (size i : Int32) (row : Row) (call : MltCall) : Row :=
  if call.Valid size ∧ call.mltIdx = i then
    match call with
    | .updateState _ state => { row with state := state }
    | .updateEntry _ srvIdx ver state => ⟨srvIdx, ver, state⟩
    | .getEntry _ => row
  else row

/-- What the last successful updates of row `i` wrote, from `i mod nb, 0, 0` on. -/
def lastRow (size nb : Int32) (calls : List MltCall) (i : Int32) : Row :=
  calls.foldl (Row.after size i) ⟨i % nb, 0, 0⟩

/-- **The call is that of a bounds-checked array of rows**, `before` being the calls before
it and `table` the table they left. -/
structure Meets (size nb : Int32) (before : List MltCall) (table : MltArray)
    (call : MltCall) (result : Returned) : Prop where
  rejected : ¬ call.Valid size → result.rc < 0 ∧ result.table = table
  accepted : call.Valid size → result.rc = 0
  others : ∀ i, i ≠ call.mltIdx → result.table.row i = table.row i
  onlyState : ∀ i state, call = .updateState i state → call.Valid size →
    result.table.row i = (table.row i).map fun row => { row with state := state }
  got : ∀ i, call = .getEntry i → call.Valid size →
    result.row = some (lastRow size nb before i) ∧ result.table = table

/-- Every call of a sequence on a new table meets its description. -/
def MeetsAll (size nb : Int32) (calls : List MltCall) : Prop :=
  ∀ before call after, calls = before ++ call :: after →
    ∃ init table result, mltInitArray size nb = .ok init ∧
      init.run before = some table ∧ table.call call = some result ∧
      Meets size nb before table call result

/-! ## Indices -/

theorem toInt_nonneg {i : Int32} (h : 0 ≤ i) : 0 ≤ i.toInt := by
  simpa using Int32.le_iff_toInt_le.mp h

theorem toInt_lt {i size : Int32} (h : i < size) : i.toInt < size.toInt :=
  Int32.lt_iff_toInt_lt.mp h

theorem not_neg_iff {i : Int32} : ¬ i < 0 ↔ 0 ≤ i := by
  rw [Int32.lt_iff_toInt_lt, Int32.le_iff_toInt_le]
  exact Int.not_lt

theorem not_lt_iff {i size : Int32} : ¬ i < size ↔ size ≤ i := by
  rw [Int32.lt_iff_toInt_lt, Int32.le_iff_toInt_le]
  exact Int.not_lt

theorem toNat_toUInt32 {i : Int32} (h : 0 ≤ i) : (i.toUInt32.toNat : Int) = i.toInt := by
  have hpos := toInt_nonneg h
  rw [Int32.toNat_toUInt32_of_le h, Int32.toNatClampNeg]
  omega

/-- The unsigned comparison of two nonnegative `int`s. -/
theorem toUInt32_le_iff {i size : Int32} (hsize : 0 ≤ size) (hi : 0 ≤ i) :
    size.toUInt32 ≤ i.toUInt32 ↔ size ≤ i := by
  have hs := toNat_toUInt32 hsize
  have h := toNat_toUInt32 hi
  rw [UInt32.le_iff_toNat_le, Int32.le_iff_toInt_le]
  omega

/-! ## One call -/

/-- The columns are as long as the table was made. -/
structure Sized (size : Int32) (table : MltArray) : Prop where
  size_eq : table.size = size.toUInt32
  idSrv : (table.idSrv.length : Int) = size.toInt
  nVer : (table.nVer.length : Int) = size.toInt
  state : (table.state.length : Int) = size.toInt

theorem Sized.exists_row {size i : Int32} {table : MltArray} (h : Sized size table)
    (hpos : 0 ≤ i) (hlt : i < size) : ∃ row, table.row i = some row := by
  have hi := toInt_nonneg hpos
  have hi' := toInt_lt hlt
  obtain ⟨srv, hsrv⟩ := exists_readCell hi (h.idSrv ▸ hi')
  obtain ⟨ver, hver⟩ := exists_readCell hi (h.nVer ▸ hi')
  obtain ⟨state, hstate⟩ := exists_readCell hi (h.state ▸ hi')
  refine ⟨⟨srv.toInt32, ver.toInt32, state.toInt32⟩, ?_⟩
  simp only [MltArray.row, hsrv, hver, hstate, Option.bind_eq_bind, Option.bind_some]

theorem Sized.call {size : Int32} {table : MltArray} {call : MltCall} {result : Returned}
    (h : Sized size table) (hcall : table.call call = some result) :
    Sized size result.table := by
  cases call with
  | updateState mltIdx state =>
      simp only [MltArray.call, MltArray.mltUpdateState] at hcall
      split at hcall
      · cases hcall
        exact h
      · obtain ⟨states, hwrite, hres⟩ := Option.bind_eq_some_iff.mp hcall
        cases hres
        exact { h with state := (congrArg Nat.cast (length_writeCell hwrite)).trans h.state }
  | updateEntry mltIdx srvIdx ver state =>
      simp only [MltArray.call, MltArray.mltUpdateEntry] at hcall
      split at hcall
      · cases hcall
        exact h
      · split at hcall
        · cases hcall
          exact h
        · obtain ⟨servers, hservers, hcall⟩ := Option.bind_eq_some_iff.mp hcall
          obtain ⟨versions, hversions, hcall⟩ := Option.bind_eq_some_iff.mp hcall
          obtain ⟨states, hstates, hres⟩ := Option.bind_eq_some_iff.mp hcall
          cases hres
          exact {
            size_eq := h.size_eq
            idSrv := (congrArg Nat.cast (length_writeCell hservers)).trans h.idSrv
            nVer := (congrArg Nat.cast (length_writeCell hversions)).trans h.nVer
            state := (congrArg Nat.cast (length_writeCell hstates)).trans h.state }
  | getEntry mltIdx =>
      simp only [MltArray.call, MltArray.mltGetEntry] at hcall
      split at hcall
      · cases hcall
        exact h
      · split at hcall
        · cases hcall
          exact h
        · obtain ⟨row, _, hres⟩ := Option.bind_eq_some_iff.mp hcall
          cases hres
          exact h

theorem stateOk_iff {state : Int32} :
    ¬ (state ≠ 0 ∧ state ≠ 1) ↔ state = 0 ∨ state = 1 := by
  tauto

/-- A call with an invalid argument is refused, unless it is the one that is not checked. -/
theorem Sized.call_of_not_valid {size : Int32} {table : MltArray} {call : MltCall}
    (h : Sized size table) (hsize : 0 ≤ size) (hvalid : ¬ call.Valid size)
    (hend : ¬ call.StatePastEnd size) :
    ∃ rc, table.call call = some ⟨rc, table, none⟩ ∧ rc < 0 := by
  cases call with
  | updateState mltIdx state =>
      refine ⟨einval, ?_, by decide⟩
      simp only [MltArray.call, MltArray.mltUpdateState]
      refine if_pos ?_
      by_contra hnot
      rw [not_or, not_neg_iff, stateOk_iff] at hnot
      have hlt : mltIdx < size := by
        by_contra hlt
        exact hend ⟨not_lt_iff.mp hlt, hnot.2⟩
      exact hvalid ⟨hnot.1, hlt, hnot.2⟩
  | updateEntry mltIdx srvIdx ver state =>
      simp only [MltArray.call, MltArray.mltUpdateEntry]
      by_cases hargs : mltIdx < 0 ∨ srvIdx < 0 ∨ (state ≠ 0 ∧ state ≠ 1)
      · exact ⟨einval, if_pos hargs, by decide⟩
      · rw [if_neg hargs]
        rw [not_or, not_or, not_neg_iff, not_neg_iff, stateOk_iff] at hargs
        refine ⟨eoverflow, if_pos ?_, by decide⟩
        rw [h.size_eq, toUInt32_le_iff hsize hargs.1]
        refine not_lt_iff.mp fun hlt => hvalid ⟨hargs.1, hlt, hargs.2⟩
  | getEntry mltIdx =>
      simp only [MltArray.call, MltArray.mltGetEntry]
      by_cases hneg : mltIdx < 0
      · exact ⟨einval, if_pos hneg, by decide⟩
      · rw [if_neg hneg]
        rw [not_neg_iff] at hneg
        refine ⟨eoverflow, if_pos ?_, by decide⟩
        rw [h.size_eq, toUInt32_le_iff hsize hneg]
        exact not_lt_iff.mp fun hlt => hvalid ⟨hneg, hlt, trivial⟩

/-- The unchecked call writes behind the column. -/
theorem Sized.call_eq_none {size : Int32} {table : MltArray} {call : MltCall}
    (h : Sized size table) (hsize : 0 ≤ size) (hend : call.StatePastEnd size) :
    table.call call = none := by
  cases call with
  | updateState mltIdx state =>
      have hle := Int32.le_iff_toInt_le.mp hend.1
      have hpos : ¬ mltIdx < 0 := by
        have hs := toInt_nonneg hsize
        rw [not_neg_iff, Int32.le_iff_toInt_le]
        exact hs.trans hle
      have hargs : ¬ (mltIdx < 0 ∨ (state ≠ 0 ∧ state ≠ 1)) :=
        not_or.mpr ⟨hpos, stateOk_iff.mpr hend.2⟩
      simp only [MltArray.call, MltArray.mltUpdateState, if_neg hargs]
      rw [writeCell_eq_none (h.state ▸ hle)]
      rfl
  | updateEntry mltIdx srvIdx ver state => exact hend.elim
  | getEntry mltIdx => exact hend.elim

/-- Reading a row of a table some columns of which were written at index `j`. -/
theorem row_of_written {table table' : MltArray} {i j : Int32} (hij : i ≠ j)
    (hsrv : ∀ k, k ≠ j.toInt → readCell table'.idSrv k = readCell table.idSrv k)
    (hver : ∀ k, k ≠ j.toInt → readCell table'.nVer k = readCell table.nVer k)
    (hstate : ∀ k, k ≠ j.toInt → readCell table'.state k = readCell table.state k) :
    table'.row i = table.row i := by
  have hne : i.toInt ≠ j.toInt := fun h => hij (Int32.toInt_inj.mp h)
  simp only [MltArray.row, hsrv _ hne, hver _ hne, hstate _ hne]

/-- An index of the table passes the checks. -/
theorem Sized.checks {size i : Int32} {table : MltArray} (h : Sized size table)
    (hpos : 0 ≤ i) (hlt : i < size) : ¬ i < 0 ∧ ¬ table.size ≤ i.toUInt32 := by
  have hsize : (0 : Int32) ≤ size := by
    rw [Int32.le_iff_toInt_le]
    exact (toInt_nonneg hpos).trans (toInt_lt hlt).le
  refine ⟨not_neg_iff.mpr hpos, ?_⟩
  rw [h.size_eq, toUInt32_le_iff hsize hpos]
  exact fun hle => absurd hlt (not_lt_iff.mpr hle)

theorem Sized.mltUpdateState {size mltIdx state : Int32} {table : MltArray}
    (h : Sized size table) (hpos : 0 ≤ mltIdx) (hlt : mltIdx < size)
    (hstate : state = 0 ∨ state = 1) :
    ∃ table', table.mltUpdateState mltIdx state = some ⟨0, table', none⟩ ∧
      ∀ i, table'.row i = if i = mltIdx
        then (table.row i).map fun row => { row with state := state } else table.row i := by
  obtain ⟨hneg, -⟩ := h.checks hpos hlt
  obtain ⟨states, hwrite⟩ :=
    exists_writeCell (toInt_nonneg hpos) (h.state ▸ toInt_lt hlt) state.toUInt32
  have hread := readCell_writeCell hwrite
  refine ⟨{ table with state := states }, ?_, fun i => ?_⟩
  · rw [MltArray.mltUpdateState, if_neg (not_or.mpr ⟨hneg, stateOk_iff.mpr hstate⟩)]
    exact Option.bind_eq_some_iff.mpr ⟨states, hwrite, rfl⟩
  · by_cases hi : i = mltIdx
    · subst hi
      obtain ⟨row, hrow⟩ := h.exists_row hpos hlt
      rw [if_pos rfl, hrow, Option.map_some]
      simp only [MltArray.row, Option.bind_eq_bind, Option.bind_eq_some_iff] at hrow ⊢
      obtain ⟨srv, hsrv, ver, hver, old, -, hsame⟩ := hrow
      refine ⟨srv, hsrv, ver, hver, state.toUInt32, (hread i.toInt).trans (if_pos rfl), ?_⟩
      cases hsame
      rfl
    · rw [if_neg hi]
      exact row_of_written hi (fun _ _ => rfl) (fun _ _ => rfl)
        fun k hk => (hread k).trans (if_neg hk)

theorem Sized.mltUpdateEntry {size mltIdx srvIdx ver state : Int32} {table : MltArray}
    (h : Sized size table) (hpos : 0 ≤ mltIdx) (hlt : mltIdx < size) (hsrvIdx : 0 ≤ srvIdx)
    (hstate : state = 0 ∨ state = 1) :
    ∃ table', table.mltUpdateEntry mltIdx srvIdx ver state = some ⟨0, table', none⟩ ∧
      ∀ i, table'.row i = if i = mltIdx then some ⟨srvIdx, ver, state⟩ else table.row i := by
  obtain ⟨hneg, hbelow⟩ := h.checks hpos hlt
  have hpos' := toInt_nonneg hpos
  have hlt' := toInt_lt hlt
  obtain ⟨servers, hservers⟩ := exists_writeCell hpos' (h.idSrv ▸ hlt') srvIdx.toUInt32
  obtain ⟨versions, hversions⟩ := exists_writeCell hpos' (h.nVer ▸ hlt') ver.toUInt32
  obtain ⟨states, hstates⟩ := exists_writeCell hpos' (h.state ▸ hlt') state.toUInt32
  have hreadSrv := readCell_writeCell hservers
  have hreadVer := readCell_writeCell hversions
  have hreadState := readCell_writeCell hstates
  refine ⟨{ table with idSrv := servers, nVer := versions, state := states }, ?_, fun i => ?_⟩
  · rw [MltArray.mltUpdateEntry, if_neg (not_or.mpr ⟨hneg, not_or.mpr
      ⟨not_neg_iff.mpr hsrvIdx, stateOk_iff.mpr hstate⟩⟩), if_neg hbelow]
    exact Option.bind_eq_some_iff.mpr ⟨servers, hservers, Option.bind_eq_some_iff.mpr
      ⟨versions, hversions, Option.bind_eq_some_iff.mpr ⟨states, hstates, rfl⟩⟩⟩
  · by_cases hi : i = mltIdx
    · subst hi
      rw [if_pos rfl]
      simp only [MltArray.row, Option.bind_eq_bind, Option.bind_eq_some_iff]
      exact ⟨_, (hreadSrv i.toInt).trans (if_pos rfl), _,
        (hreadVer i.toInt).trans (if_pos rfl), _, (hreadState i.toInt).trans (if_pos rfl), rfl⟩
    · rw [if_neg hi]
      exact row_of_written hi (fun k hk => (hreadSrv k).trans (if_neg hk))
        (fun k hk => (hreadVer k).trans (if_neg hk))
        fun k hk => (hreadState k).trans (if_neg hk)

/-- A valid call succeeds, and makes of every row what the description says. -/
theorem Sized.call_of_valid {size : Int32} {table : MltArray} {call : MltCall}
    (h : Sized size table) (hvalid : call.Valid size) :
    ∃ result, table.call call = some result ∧ result.rc = 0 ∧
      (∀ i, 0 ≤ i → i < size →
        result.table.row i = (table.row i).map fun row => row.after size i call) ∧
      (∀ i, i ≠ call.mltIdx → result.table.row i = table.row i) ∧
      ∀ i, call = .getEntry i → result.row = table.row i ∧ result.table = table := by
  have hother : ∀ i row, i ≠ call.mltIdx → Row.after size i row call = row := fun i row hi =>
    if_neg fun hcall => hi hcall.2.symm
  cases call with
  | updateState mltIdx state =>
      obtain ⟨table', hcall, hrow⟩ :=
        @Sized.mltUpdateState size mltIdx state table h hvalid.1 hvalid.2.1 hvalid.2.2
      refine ⟨_, hcall, rfl, fun i _ _ => ?_, fun i hi => (hrow i).trans (if_neg hi), by simp⟩
      rw [hrow]
      by_cases hi : i = mltIdx
      · subst hi
        simp [Row.after, hvalid, MltCall.mltIdx]
      · simp [hi, hother i _ hi]
  | updateEntry mltIdx srvIdx ver state =>
      obtain ⟨table', hcall, hrow⟩ :=
        @Sized.mltUpdateEntry size mltIdx srvIdx ver state table h hvalid.1 hvalid.2.1
          hvalid.2.2.1 hvalid.2.2.2
      refine ⟨_, hcall, rfl, fun i hpos hlt => ?_, fun i hi => (hrow i).trans (if_neg hi),
        by simp⟩
      obtain ⟨row, hold⟩ := h.exists_row hpos hlt
      rw [hrow, hold]
      by_cases hi : i = mltIdx
      · subst hi
        simp [Row.after, hvalid, MltCall.mltIdx]
      · simp [hi, hother i _ hi]
  | getEntry mltIdx =>
      have hpos : 0 ≤ mltIdx := hvalid.1
      have hlt : mltIdx < size := hvalid.2.1
      obtain ⟨row, hrow⟩ := h.exists_row hpos hlt
      obtain ⟨hneg, hbelow⟩ := h.checks hpos hlt
      refine ⟨⟨0, table, some row⟩, ?_, rfl, fun i _ _ => ?_, fun _ _ => rfl, fun i hi => ?_⟩
      · change table.mltGetEntry mltIdx = _
        rw [MltArray.mltGetEntry, if_neg hneg]
        exact (if_neg hbelow).trans (Option.bind_eq_some_iff.mpr ⟨row, hrow, rfl⟩)
      · have hsame : (fun row : Row => row.after size i (.getEntry mltIdx)) = id := by
          funext row
          exact ite_self row
        rw [hsame, Option.map_id]
        rfl
      · cases hi
        exact ⟨hrow.symm, rfl⟩

/-! ## A sequence of calls -/

/-- The table holds in every row what was written there last. -/
structure Holds (size nb : Int32) (calls : List MltCall) (table : MltArray) : Prop where
  sized : Sized size table
  row : ∀ i, 0 ≤ i → i < size → table.row i = some (lastRow size nb calls i)

theorem ofNat_toNat {i : Int32} (h : 0 ≤ i) : Int32.ofNat i.toInt.toNat = i := by
  have hpos := toInt_nonneg h
  have hlt := i.toInt_lt
  rw [← Int32.toInt_inj, Int32.toInt_ofNat_of_lt (by omega)]
  omega

theorem holds_mltInit {size nb : Int32} (hsize : 1 ≤ size) (hnb : 1 ≤ nb) :
    ∃ init, mltInitArray size nb = .ok init ∧ Holds size nb [] init := by
  have hsize' : ¬ size ≤ 0 := by
    rw [Int32.le_iff_toInt_le] at hsize ⊢
    exact fun h => absurd (hsize.trans h) (by decide)
  have hnb' : ¬ nb ≤ 0 := by
    rw [Int32.le_iff_toInt_le] at hnb ⊢
    exact fun h => absurd (hnb.trans h) (by decide)
  have hpos : 0 ≤ size.toInt := by
    have h : (1 : Int32).toInt ≤ size.toInt := Int32.le_iff_toInt_le.mp hsize
    exact (show (0 : Int) ≤ (1 : Int32).toInt by decide).trans h
  refine ⟨_, if_neg (not_or.mpr ⟨hsize', hnb'⟩), ?_, ?_⟩
  · exact {
      size_eq := rfl
      idSrv := by rw [List.length_map, List.length_range, Int.toNat_of_nonneg hpos]
      nVer := by rw [List.length_replicate, Int.toNat_of_nonneg hpos]
      state := by rw [List.length_replicate, Int.toNat_of_nonneg hpos] }
  · intro i hi hlt
    have hi' := toInt_nonneg hi
    have hin : i.toInt.toNat < size.toInt.toNat := by
      have hlt' := toInt_lt hlt
      omega
    simp only [MltArray.row, readCell, if_pos hi', List.getElem?_map,
      List.getElem?_range hin, List.getElem?_replicate_of_lt hin, Option.map_some,
      Option.bind_eq_bind, Option.bind_some, ofNat_toNat hi]
    rfl

/-- A call that is not behind the table meets its description and leaves what is described. -/
theorem Holds.call {size nb : Int32} {calls : List MltCall} {table : MltArray}
    (h : Holds size nb calls table) (hsize : 0 ≤ size) {call : MltCall}
    (hend : ¬ call.StatePastEnd size) :
    ∃ result, table.call call = some result ∧ Meets size nb calls table call result ∧
      Holds size nb (calls ++ [call]) result.table := by
  have hlast : ∀ i, lastRow size nb (calls ++ [call]) i =
      (lastRow size nb calls i).after size i call := by
    intro i
    rw [lastRow, List.foldl_append]
    rfl
  by_cases hvalid : call.Valid size
  · obtain ⟨result, hcall, hrc, hrow, hother, hget⟩ := h.sized.call_of_valid hvalid
    refine ⟨result, hcall, ?_, h.sized.call hcall, ?_⟩
    · refine ⟨fun hnot => absurd hvalid hnot, fun _ => hrc, hother, ?_, ?_⟩
      · intro i state heq _
        subst heq
        rw [hrow i hvalid.1 hvalid.2.1]
        refine congrArg (Option.map · (table.row i)) ?_
        funext row
        exact if_pos ⟨hvalid, rfl⟩
      · intro i heq _
        subst heq
        rw [(hget i rfl).1, h.row i hvalid.1 hvalid.2.1]
        exact ⟨rfl, (hget i rfl).2⟩
    · intro i hi hlt
      rw [hrow i hi hlt, h.row i hi hlt, hlast, Option.map_some]
  · obtain ⟨rc, hcall, hrc⟩ := h.sized.call_of_not_valid hsize hvalid hend
    refine ⟨_, hcall, ?_, h.sized, ?_⟩
    · exact ⟨fun _ => ⟨hrc, rfl⟩, fun hyes => absurd hyes hvalid, fun _ _ => rfl,
        fun _ _ _ hyes => absurd hyes hvalid, fun _ _ hyes => absurd hyes hvalid⟩
    · intro i hi hlt
      rw [h.row i hi hlt, hlast]
      exact congrArg some (if_neg fun hboth => hvalid hboth.1).symm

theorem Holds.run {size nb : Int32} {calls before : List MltCall} {table : MltArray}
    (h : Holds size nb before table) (hsize : 0 ≤ size)
    (hend : ∀ call ∈ calls, ¬ call.StatePastEnd size) :
    ∃ table', table.run calls = some table' ∧ Holds size nb (before ++ calls) table' := by
  induction calls generalizing before table with
  | nil => exact ⟨table, rfl, by rwa [List.append_nil]⟩
  | cons call calls ih =>
      obtain ⟨result, hcall, -, hholds⟩ := h.call hsize (hend call (by simp))
      obtain ⟨table', hrun, hdone⟩ := ih hholds fun c hc => hend c (List.mem_cons_of_mem _ hc)
      refine ⟨table', ?_, by rwa [List.append_assoc] at hdone⟩
      rw [MltArray.run, List.foldlM_cons, hcall]
      exact hrun

theorem Sized.run {size : Int32} {calls : List MltCall} {table table' : MltArray}
    (h : Sized size table) (hrun : table.run calls = some table') : Sized size table' := by
  induction calls generalizing table with
  | nil =>
      cases hrun
      exact h
  | cons call calls ih =>
      rw [MltArray.run, List.foldlM_cons] at hrun
      obtain ⟨next, hnext, hrest⟩ := Option.bind_eq_some_iff.mp hrun
      obtain ⟨result, hcall, rfl⟩ := Option.map_eq_some_iff.mp hnext
      exact ih (h.call hcall) hrest

/-- **The lookup table**: on a new table with at least one row, for at least one server, a
sequence of calls behaves as on a bounds-checked array of rows exactly when none of them is
an `mlt_update_state` behind the table, the one operation that does not compare its index
with the size. -/
theorem meetsAll_iff (size nb : Int32) (hsize : 1 ≤ size) (hnb : 1 ≤ nb)
    (calls : List MltCall) :
    MeetsAll size nb calls ↔ ∀ call ∈ calls, ¬ call.StatePastEnd size := by
  have hpos : (0 : Int32) ≤ size := by
    rw [Int32.le_iff_toInt_le] at hsize ⊢
    exact (show (0 : Int32).toInt ≤ (1 : Int32).toInt by decide).trans hsize
  obtain ⟨init, hinit, hholds⟩ := holds_mltInit hsize hnb
  constructor
  · intro hmeets call hmem hend
    obtain ⟨before, after, hsplit⟩ := List.append_of_mem hmem
    obtain ⟨init', table, result, hinit', hrun, hcall, -⟩ := hmeets before call after hsplit
    have hsame : init' = init := Except.ok.inj (hinit'.symm.trans hinit)
    subst hsame
    have hnone := (hholds.sized.run hrun).call_eq_none hpos hend
    rw [hnone] at hcall
    cases hcall
  · intro hend before call after hsplit
    subst hsplit
    obtain ⟨table, hrun, hbefore⟩ :=
      hholds.run hpos fun c hc => hend c (List.mem_append_left _ hc)
    obtain ⟨result, hcall, hmeet, -⟩ := hbefore.call hpos (hend call (by simp))
    exact ⟨init, table, result, hinit, hrun, hcall, hmeet⟩

/-- Two rows of a table of four are written and one is read, and one call is refused. -/
theorem meetsAll_iff_four :
    MeetsAll 4 2 [.updateEntry 3 1 7 0, .updateState 3 1, .updateEntry 4 0 0 0, .getEntry 3] ↔
      ∀ call ∈ [MltCall.updateEntry 3 1 7 0, .updateState 3 1, .updateEntry 4 0 0 0,
        .getEntry 3], ¬ call.StatePastEnd 4 :=
  meetsAll_iff 4 2 (by decide) (by decide) _

/-- The first index behind a table of four rows is not refused. -/
theorem updateState_past_end : ¬ MeetsAll 4 2 [.updateState 4 1] := by
  intro hmeets
  obtain ⟨init, table, result, hinit, hrun, hcall, -⟩ := hmeets [] (.updateState 4 1) [] rfl
  obtain ⟨init', hinit', hholds⟩ := holds_mltInit (show (1 : Int32) ≤ 4 by decide)
    (show (1 : Int32) ≤ 2 by decide)
  have hsame : init = init' := Except.ok.inj (hinit.symm.trans hinit')
  subst hsame
  cases hrun
  have hnone := hholds.sized.call_eq_none (by decide)
    (show (MltCall.updateState 4 1).StatePastEnd 4 from ⟨by decide, Or.inr rfl⟩)
  rw [hnone] at hcall
  cases hcall

/-! ## Refinement of the table

The models of the servers and of the manager only use indices of the table, where the checks
succeed and a row is changed as a whole.
-/

variable {n nb : Nat}

/-- The row of the table as `mlt_get_entry` returns it. -/
def Mlt.row (table : Mlt n (Fin nb)) (e : Fin n) : Row where
  srv := Int32.ofNat (table.idSrv e)
  ver := Int32.ofNat (table.nVer e)
  state := if table.state e then 1 else 0

/-- The columns hold the table. -/
structure Represents (array : MltArray) (table : Mlt n (Fin nb)) : Prop where
  sized : Sized (Int32.ofNat n) array
  row : ∀ e : Fin n, array.row (Int32.ofNat e) = some (table.row e)

theorem ofNat_le_of_lt {e : Nat} (he : e < 2 ^ 31) : (0 : Int32) ≤ Int32.ofNat e := by
  rw [Int32.le_iff_toInt_le, Int32.toInt_ofNat_of_lt he]
  exact Int.natCast_nonneg e

theorem ofNat_lt_ofNat {e k : Nat} (hk : k < 2 ^ 31) (he : e < k) :
    Int32.ofNat e < Int32.ofNat k := by
  rw [Int32.lt_iff_toInt_lt, Int32.toInt_ofNat_of_lt hk, Int32.toInt_ofNat_of_lt (by omega)]
  exact Int.ofNat_lt.mpr he

theorem ofNat_inj {e k : Nat} (he : e < 2 ^ 31) (hk : k < 2 ^ 31)
    (h : Int32.ofNat e = Int32.ofNat k) : e = k := by
  have htoInt := congrArg Int32.toInt h
  rw [Int32.toInt_ofNat_of_lt he, Int32.toInt_ofNat_of_lt hk] at htoInt
  exact Int.ofNat_inj.mp htoInt

theorem ofNat_mod {e k : Nat} (he : e < 2 ^ 31) (hk : k < 2 ^ 31) :
    Int32.ofNat e % Int32.ofNat k = Int32.ofNat (e % k) := by
  have hle : e % k ≤ e := Nat.mod_le e k
  rw [← Int32.toInt_inj, Int32.toInt_mod, Int32.toInt_ofNat_of_lt he,
    Int32.toInt_ofNat_of_lt hk, Int32.toInt_ofNat_of_lt (by omega)]
  rfl

theorem represents_mltInit [NeZero nb] (hpos : 0 < n) (hn : n < 2 ^ 31) (hnb : nb < 2 ^ 31) :
    ∃ init, mltInitArray (Int32.ofNat n) (Int32.ofNat nb) = .ok init ∧
      Represents init (mltInit n nb) := by
  have hone : ∀ k : Nat, 0 < k → k < 2 ^ 31 → (1 : Int32) ≤ Int32.ofNat k := by
    intro k hk hlt
    rw [Int32.le_iff_toInt_le, Int32.toInt_ofNat_of_lt hlt]
    exact Int.ofNat_le.mpr hk
  obtain ⟨init, hinit, hholds⟩ :=
    holds_mltInit (hone n hpos hn) (hone nb (Nat.pos_of_ne_zero (NeZero.ne nb)) hnb)
  refine ⟨init, hinit, hholds.sized, fun e => ?_⟩
  have he := e.isLt
  rw [hholds.row _ (ofNat_le_of_lt (by omega)) (ofNat_lt_ofNat hn he)]
  simp only [lastRow, List.foldl_nil, ofNat_mod (show (e : Nat) < 2 ^ 31 by omega) hnb]
  rfl

theorem Represents.updateEntry {array : MltArray} {table : Mlt n (Fin nb)}
    (h : Represents array table) (hn : n < 2 ^ 31) (hnb : nb ≤ 2 ^ 31) (e : Fin n)
    (srv : Fin nb) (ver : Nat) (state : Bool) :
    ∃ array', array.mltUpdateEntry (Int32.ofNat e) (Int32.ofNat srv) (Int32.ofNat ver)
        (if state then 1 else 0) = some ⟨0, array', none⟩ ∧
      Represents array' (table.updateEntry e srv ver state) := by
  have hlt := e.isLt
  have hsrv := srv.isLt
  obtain ⟨array', hcall, hrow⟩ := @Sized.mltUpdateEntry (Int32.ofNat n) (Int32.ofNat e)
    (Int32.ofNat srv) (Int32.ofNat ver) (if state then 1 else 0) array h.sized
    (ofNat_le_of_lt (by omega)) (ofNat_lt_ofNat hn hlt) (ofNat_le_of_lt (by omega))
    (by cases state <;> simp)
  refine ⟨array', hcall, @Sized.call _ _ (.updateEntry _ _ _ _) _ h.sized hcall, fun i => ?_⟩
  have hi := i.isLt
  rw [hrow, Mlt.row]
  by_cases hie : i = e
  · subst hie
    simp
  · have hne : Int32.ofNat i ≠ Int32.ofNat e := fun heq =>
      hie (Fin.ext (ofNat_inj (by omega) (by omega) heq))
    rw [if_neg hne, h.row i, Mlt.row]
    simp [hie]

theorem Represents.updateState {array : MltArray} {table : Mlt n (Fin nb)}
    (h : Represents array table) (hn : n < 2 ^ 31) (e : Fin n) (state : Bool) :
    ∃ array', array.mltUpdateState (Int32.ofNat e) (if state then 1 else 0) =
        some ⟨0, array', none⟩ ∧
      Represents array' (table.updateState e state) := by
  have hlt := e.isLt
  obtain ⟨array', hcall, hrow⟩ := @Sized.mltUpdateState (Int32.ofNat n) (Int32.ofNat e)
    (if state then 1 else 0) array h.sized (ofNat_le_of_lt (by omega)) (ofNat_lt_ofNat hn hlt)
    (by cases state <;> simp)
  refine ⟨array', hcall, @Sized.call _ _ (.updateState _ _) _ h.sized hcall, fun i => ?_⟩
  have hi := i.isLt
  rw [hrow, Mlt.row, h.row i, Mlt.row]
  by_cases hie : i = e
  · subst hie
    simp
  · have hne : Int32.ofNat i ≠ Int32.ofNat e := fun heq =>
      hie (Fin.ext (ofNat_inj (by omega) (by omega) heq))
    simp [hne, hie]

end MeDiE.Table
