import MeDiE.Storage.Generic
import MeDiE.Trace.Split
import MeDiE.Verified.Hex

/-!
# `setup.py`

The script prints the creates that have to come before a trace: one for each key whose
first operation is not a create.  It prints a key as the number that the key stands for, so
that a key comes out as it was only if it is spelled the way `%x` prints it.
-/

namespace MeDiE.Trace

open MeDiE.Storage
open MeDiE.Verified.Hex

/-- The operations of a trace. -/
inductive Operation where
  | create
  | get
  | update
  | delete
deriving DecidableEq

def Operation.name : Operation → Line
  | create => "create".toList
  | get => "get".toList
  | update => "update".toList
  | delete => "delete".toList

/-- A key that is a string of hexadecimal digits. -/
structure HexKey extends Key where
  isDigit : ∀ c ∈ chars, IsDigit c
deriving DecidableEq

/-- A line of a trace, `timestamp,operation,key,jobid`. -/
structure TraceRequest where
  timestamp : Line
  operation : Operation
  key : HexKey
  jobid : Line
  timestamp_noComma : ',' ∉ timestamp
  jobid_noComma : ',' ∉ jobid

/-- `operation,key,jobid`. -/
def operationLine (operation : Operation) (key : Key) (jobid : Line) : Line :=
  operation.name ++ ',' :: (key.chars ++ ',' :: jobid)

namespace TraceRequest

/-- The line without its timestamp. -/
def operationLine (request : TraceRequest) : Line :=
  Trace.operationLine request.operation request.key.toKey request.jobid

/-- The line as it stands in the trace. -/
def render (request : TraceRequest) : Line :=
  request.timestamp ++ ',' :: request.operationLine

end TraceRequest

/-! ## The script -/

/-- `futur_created` and `to_create`. -/
structure Setup where
  futurCreated : Finset Line
  toCreate : Finset Nat

/-- One round of the loop of `_main`; `none` for a `ValueError`. -/
def setupLine (st : Setup) (line : Line) : Option Setup :=
  match line.splitOn ',' with
  | [_, operation, key, _] =>
      let futurCreated :=
        if operation = Operation.create.name then insert key st.futurCreated
        else st.futurCreated
      if key ∈ futurCreated then some { st with futurCreated := futurCreated }
      else (readHex key).map fun number => ⟨futurCreated, insert number st.toCreate⟩
  | _ => none

/-- `main`, for one file, up to the printing: what is in `to_create`. -/
def setupMain (file : List Line) : Option (Finset Nat) :=
  -- `stream.readline()`
  (file.tail.foldlM setupLine ⟨∅, ∅⟩).map Setup.toCreate

/-- `"create,%x,-1" % key`.  An empty set is printed as an empty line, which is no create. -/
def createLine (number : Nat) : Line :=
  "create,".toList ++ showHex number ++ ",-1".toList

/-! ## Carrying out operations -/

/-- An operation on a store, or `none` when it fails: a `get` by returning `NULL`. -/
def execute (data : Data) (store : Store) (operation : Operation) (key : Key) :
    Option Store :=
  match operation with
  | .create => genericPut store key data
  | .get => if genericGet store key = .null then none else some store
  | .update => genericUpdate store key data
  | .delete => genericDel store key

def operationOf (name : Line) : Option Operation :=
  [Operation.create, .get, .update, .delete].find? fun operation => operation.name = name

def keyOf (chars : Line) : Option Key :=
  if h : chars ≠ [] ∧ ',' ∉ chars then some ⟨chars, h.1, h.2⟩ else none

/-- A line `operation,key,jobid` carried out. -/
def executeLine (data : Data) (store : Store) (line : Line) : Option Store :=
  match line.splitOn ',' with
  | [operation, key, _] => do
      let operation ← operationOf operation
      let key ← keyOf key
      execute data store operation key
  | _ => none

/-- Lines carried out one after the other, until one fails. -/
def executeLines (data : Data) (store : Store) (lines : List Line) : Option Store :=
  lines.foldlM (executeLine data) store

theorem executeLines_append (data : Data) (store : Store) (lines lines' : List Line) :
    executeLines data store (lines ++ lines') =
      (executeLines data store lines).bind fun store => executeLines data store lines' :=
  List.foldlM_append

theorem name_noComma (operation : Operation) : ',' ∉ operation.name := by
  cases operation <;> decide

theorem operationOf_name (operation : Operation) :
    operationOf operation.name = some operation := by
  cases operation <;> decide

theorem keyOf_chars (key : Key) : keyOf key.chars = some key :=
  dif_pos ⟨key.chars_ne, key.noComma⟩

theorem splitOn_fields (operation : Operation) (key : Key) {jobid : Line}
    (hjobid : ',' ∉ jobid) :
    (operationLine operation key jobid).splitOn ',' = [operation.name, key.chars, jobid] := by
  rw [operationLine, List.splitOn_append_cons_self, List.splitOn_append_cons_self,
    List.splitOn_eq_singleton (name_noComma operation), List.splitOn_eq_singleton key.noComma,
    List.splitOn_eq_singleton hjobid]
  rfl

theorem executeLine_operationLine (data : Data) (store : Store) (operation : Operation)
    (key : Key) {jobid : Line} (hjobid : ',' ∉ jobid) :
    executeLine data store (operationLine operation key jobid) =
      execute data store operation key := by
  rw [executeLine, splitOn_fields operation key hjobid]
  simp only [operationOf_name, keyOf_chars, Option.bind_eq_bind, Option.bind_some]

/-! ## Which keys are there -/

/-- Whether the operation needs the key to be there. -/
def Operation.needs : Operation → Bool
  | create => false
  | get | update | delete => true

/-- Whether the operation leaves the key there. -/
def Operation.leaves : Operation → Bool
  | create | get | update => true
  | delete => false

/-- An operation that succeeds has found what it needs, and changes its own key only. -/
theorem execute_eq_some {data : Data} {store store' : Store} {operation : Operation} {key : Key}
    (h : execute data store operation key = some store') :
    (store key).isSome = operation.needs ∧ (store' key).isSome = operation.leaves ∧
      ∀ other, other ≠ key → store' other = store other := by
  cases operation with
  | create =>
      obtain ⟨hnone, rfl⟩ := genericPut_eq_some.mp h
      exact ⟨by rw [hnone]; rfl, by rw [Function.update_self]; rfl,
        fun other hother => Function.update_of_ne hother _ _⟩
  | get =>
      rw [execute, Option.ite_none_left_eq_some, genericGet_eq_null, Option.some.injEq] at h
      obtain ⟨hstored, rfl⟩ := h
      obtain ⟨content, hcontent⟩ := Option.ne_none_iff_exists'.mp hstored
      exact ⟨by rw [hcontent]; rfl, by rw [hcontent]; rfl, fun _ _ => rfl⟩
  | update =>
      obtain ⟨hsome, rfl⟩ := genericUpdate_eq_some.mp h
      exact ⟨Option.isSome_iff_ne_none.mpr hsome, by rw [Function.update_self]; rfl,
        fun other hother => Function.update_of_ne hother _ _⟩
  | delete =>
      obtain ⟨hsome, rfl⟩ := genericDel_eq_some.mp h
      exact ⟨Option.isSome_iff_ne_none.mpr hsome, by rw [Function.update_self]; rfl,
        fun other hother => Function.update_of_ne hother _ _⟩

/-- An operation that finds what it needs succeeds. -/
theorem exists_execute (data : Data) {store : Store} {operation : Operation} {key : Key}
    (h : (store key).isSome = operation.needs) :
    ∃ store', execute data store operation key = some store' := by
  cases operation with
  | create =>
      have hnone : store key = none := Option.not_isSome_iff_eq_none.mp (by rw [h]; decide)
      exact ⟨_, genericPut_eq_some.mpr ⟨hnone, rfl⟩⟩
  | get =>
      obtain ⟨content, hcontent⟩ := Option.isSome_iff_exists.mp h
      exact ⟨store, by simp [execute, genericGet_eq_null, hcontent]⟩
  | update =>
      exact ⟨_, genericUpdate_eq_some.mpr ⟨Option.isSome_iff_ne_none.mp h, rfl⟩⟩
  | delete =>
      exact ⟨_, genericDel_eq_some.mpr ⟨Option.isSome_iff_ne_none.mp h, rfl⟩⟩

/-! ## Replaying a trace -/

/-- A trace carried out. -/
def executeTrace (data : Data) (store : Store) (trace : List TraceRequest) : Option Store :=
  executeLines data store (trace.map TraceRequest.operationLine)

theorem executeTrace_cons (data : Data) (store : Store) (request : TraceRequest)
    (trace : List TraceRequest) :
    executeTrace data store (request :: trace) =
      (execute data store request.operation request.key.toKey).bind
        fun store => executeTrace data store trace := by
  rw [executeTrace, List.map_cons, executeLines, List.foldlM_cons, TraceRequest.operationLine,
    executeLine_operationLine _ _ _ _ request.jobid_noComma]
  rfl

/-- The operation that a trace begins with on a key. -/
def firstOperation (trace : List TraceRequest) (key : HexKey) : Option Operation :=
  (trace.find? fun request => request.key = key).map TraceRequest.operation

theorem toKey_inj {key key' : HexKey} (h : key.chars = key'.chars) : key = key' := by
  obtain ⟨⟨chars, _, _⟩, _⟩ := key
  obtain ⟨⟨chars', _, _⟩, _⟩ := key'
  cases h
  rfl

theorem toKey_ne {key key' : HexKey} (h : key ≠ key') : key.toKey ≠ key'.toKey :=
  fun heq => h (toKey_inj (congrArg Key.chars heq))

/-- A store on which a trace is carried out has the keys that the first operations need. -/
theorem isSome_of_executeTrace {data : Data} {store store' : Store} {trace : List TraceRequest}
    (h : executeTrace data store trace = some store') {key : HexKey} {operation : Operation}
    (hfirst : firstOperation trace key = some operation) :
    (store key.toKey).isSome = operation.needs := by
  induction trace generalizing store with
  | nil => cases hfirst
  | cons request trace ih =>
      rw [executeTrace_cons] at h
      obtain ⟨next, hnext, hrest⟩ := Option.bind_eq_some_iff.mp h
      obtain ⟨hneeds, -, hothers⟩ := execute_eq_some hnext
      by_cases hkey : request.key = key
      · subst hkey
        have hop : request.operation = operation := by simpa [firstOperation] using hfirst
        rw [← hop]
        exact hneeds
      · rw [← hothers key.toKey (toKey_ne (Ne.symm hkey))]
        exact ih hrest (by simpa [firstOperation, hkey] using hfirst)

/-- A trace that can be carried out on one store can be carried out on another exactly when
that has the same of its keys. -/
theorem executeTrace_congr {data : Data} {store store' other : Store}
    {trace : List TraceRequest} (h : executeTrace data store trace = some store') :
    (executeTrace data other trace).isSome ↔
      ∀ request ∈ trace, (other request.key.toKey).isSome = (store request.key.toKey).isSome := by
  induction trace generalizing store other with
  | nil => simp [executeTrace, executeLines]
  | cons request trace ih =>
      rw [executeTrace_cons] at h ⊢
      obtain ⟨next, hnext, hrest⟩ := Option.bind_eq_some_iff.mp h
      obtain ⟨hneeds, hleaves, hothers⟩ := execute_eq_some hnext
      rw [List.forall_mem_cons]
      constructor
      · intro hsome
        obtain ⟨last, hlast⟩ := Option.isSome_iff_exists.mp hsome
        obtain ⟨next', hnext', hrest'⟩ := Option.bind_eq_some_iff.mp hlast
        obtain ⟨hneeds', hleaves', hothers'⟩ := execute_eq_some hnext'
        have hafter := (ih hrest).mp (Option.isSome_iff_exists.mpr ⟨last, hrest'⟩)
        refine ⟨hneeds'.trans hneeds.symm, fun later hlater => ?_⟩
        by_cases hkey : later.key = request.key
        · rw [hkey, hneeds', hneeds]
        · have hne := toKey_ne hkey
          rw [← hothers _ hne, ← hothers' _ hne]
          exact hafter later hlater
      · rintro ⟨hfirst, hlater⟩
        obtain ⟨next', hnext'⟩ := exists_execute data (hfirst.trans hneeds)
        obtain ⟨-, hleaves', hothers'⟩ := execute_eq_some hnext'
        rw [hnext', Option.bind_some, ih hrest]
        intro later hmem
        by_cases hkey : later.key = request.key
        · rw [hkey, hleaves', hleaves]
        · have hne := toKey_ne hkey
          rw [hothers _ hne, hothers' _ hne]
          exact hlater later hmem

/-! ## What is printed -/

/-- The key that is printed for a number. -/
def printedKey (number : Nat) : HexKey where
  chars := showHex number
  chars_ne := showHex_ne_nil number
  noComma := fun hmem => absurd (isDigit_of_mem_showHex hmem) (by decide)
  isDigit := fun _ hmem => isDigit_of_mem_showHex hmem

theorem printedKey_inj {number number' : Nat} (h : printedKey number = printedKey number') :
    number = number' := by
  have hchars : (printedKey number).chars = (printedKey number').chars := by rw [h]
  exact showHex_inj hchars

theorem createLine_eq (number : Nat) :
    createLine number =
      operationLine .create (printedKey number).toKey "-1".toList := by
  have hcreate : "create,".toList = Operation.create.name ++ [','] := by decide
  have hjobid : ",-1".toList = ',' :: "-1".toList := by decide
  calc createLine number
      = (Operation.create.name ++ [',']) ++ showHex number ++ ',' :: "-1".toList := by
        unfold createLine
        rw [hcreate, hjobid]
    _ = Operation.create.name ++ ',' :: (showHex number ++ ',' :: "-1".toList) := by
        simp only [List.append_assoc, List.cons_append, List.nil_append]
    _ = operationLine .create (printedKey number).toKey "-1".toList := rfl

/-- The creates succeed on a store that has none of their keys, and add them. -/
theorem executeLines_creates (data : Data) {store : Store} {order : List Nat}
    (hnodup : order.Nodup) (habsent : ∀ number ∈ order, store (printedKey number).toKey = none) :
    ∃ store', executeLines data store (order.map createLine) = some store' ∧
      ∀ key : HexKey, (store' key.toKey).isSome ↔
        (store key.toKey).isSome ∨ ∃ number ∈ order, printedKey number = key := by
  induction order generalizing store with
  | nil => exact ⟨store, rfl, by simp⟩
  | cons number order ih =>
      rw [List.nodup_cons] at hnodup
      obtain ⟨next, hnext⟩ := @exists_execute data store .create (printedKey number).toKey
        (by rw [habsent number (by simp)]; rfl)
      obtain ⟨-, hleaves, hothers⟩ := execute_eq_some hnext
      have hprinted : ∀ later ∈ order, printedKey later ≠ printedKey number := by
        intro later hlater heq
        have hsame : later = number := printedKey_inj heq
        exact hnodup.1 (hsame ▸ hlater)
      obtain ⟨last, hlast, hkeys⟩ := @ih next hnodup.2 fun later hlater => by
        rw [hothers _ (toKey_ne (hprinted later hlater))]
        exact habsent later (by simp [hlater])
      refine ⟨last, ?_, fun key => ?_⟩
      · rw [List.map_cons, executeLines, List.foldlM_cons, createLine_eq,
          executeLine_operationLine _ _ _ _ (by decide), hnext]
        exact hlast
      · rw [hkeys key]
        by_cases hkey : printedKey number = key
        · subst hkey
          simp [hleaves, Operation.leaves]
        · rw [hothers _ (toKey_ne (Ne.symm hkey))]
          simp [hkey]

/-! ## What is in `to_create` -/

theorem firstOperation_append_of_mem {done later : List TraceRequest} {request : TraceRequest}
    (h : request ∈ done) :
    firstOperation (done ++ later) request.key = firstOperation done request.key := by
  unfold firstOperation
  rw [List.find?_append]
  cases hfind : done.find? fun r => r.key = request.key with
  | some r => rfl
  | none =>
      rw [List.find?_eq_none] at hfind
      exact absurd (decide_eq_true rfl) (hfind request h)

theorem exists_firstOperation {trace : List TraceRequest} {request : TraceRequest}
    (h : request ∈ trace) : ∃ operation, firstOperation trace request.key = some operation := by
  cases hfind : trace.find? fun r => r.key = request.key with
  | some r => exact ⟨r.operation, by rw [firstOperation, hfind]; rfl⟩
  | none =>
      rw [List.find?_eq_none] at hfind
      exact absurd (decide_eq_true rfl) (hfind request h)

/-- The first operation on a key is one of the operations on it. -/
theorem exists_of_firstOperation {trace : List TraceRequest} {key : HexKey}
    {operation : Operation} (h : firstOperation trace key = some operation) :
    ∃ request ∈ trace, request.key = key ∧ request.operation = operation := by
  obtain ⟨request, hfind, hop⟩ := Option.map_eq_some_iff.mp h
  refine ⟨request, List.mem_of_find?_eq_some hfind, ?_, hop⟩
  simpa using List.find?_some hfind

/-- A key that has not been seen yet begins with the operation that comes next. -/
theorem firstOperation_append_self {done : List TraceRequest} {request : TraceRequest}
    (h : ∀ r ∈ done, r.key ≠ request.key) :
    firstOperation (done ++ [request]) request.key = some request.operation := by
  have hnone : (done.find? fun r => r.key = request.key) = none := by
    rw [List.find?_eq_none]
    intro r hr
    simpa using h r hr
  simp [firstOperation, List.find?_append, hnone]

/-- What the loop knows about the lines it has read. -/
structure SetupInv (done : List TraceRequest) (st : Setup) : Prop where
  futurCreated : ∀ chars, chars ∈ st.futurCreated ↔
    ∃ request ∈ done, request.operation = .create ∧ request.key.chars = chars
  toCreate : ∀ number, number ∈ st.toCreate ↔
    ∃ request ∈ done, firstOperation done request.key ≠ some .create ∧
      readHex request.key.chars = some number

/-- A line whose key is known to be created leaves the numbers to create as they are. -/
theorem SetupInv.toCreate_append {done : List TraceRequest} {st : Setup}
    (inv : SetupInv done st) {request : TraceRequest}
    (hseen : firstOperation (done ++ [request]) request.key ≠ some .create →
      ∃ r ∈ done, r.key = request.key) (number : Nat) :
    number ∈ st.toCreate ↔
      ∃ r ∈ done ++ [request], firstOperation (done ++ [request]) r.key ≠ some .create ∧
        readHex r.key.chars = some number := by
  rw [inv.toCreate]
  constructor
  · rintro ⟨r, hr, hfirst, hread⟩
    exact ⟨r, List.mem_append_left _ hr, by rwa [firstOperation_append_of_mem hr], hread⟩
  · rintro ⟨r, hr, hfirst, hread⟩
    rcases List.mem_append.mp hr with hr | hr
    · exact ⟨r, hr, by rwa [firstOperation_append_of_mem hr] at hfirst, hread⟩
    · rw [List.mem_singleton] at hr
      subst hr
      obtain ⟨r', hr', hkey⟩ := hseen hfirst
      refine ⟨r', hr', ?_, by rwa [hkey]⟩
      rw [← @firstOperation_append_of_mem _ [r] _ hr', hkey]
      exact hfirst

theorem splitOn_render (request : TraceRequest) :
    request.render.splitOn ',' =
      [request.timestamp, request.operation.name, request.key.chars, request.jobid] := by
  rw [TraceRequest.render, List.splitOn_append_cons_self,
    List.splitOn_eq_singleton request.timestamp_noComma, TraceRequest.operationLine,
    splitOn_fields _ _ request.jobid_noComma]
  rfl

theorem name_eq_create {operation : Operation} :
    operation.name = Operation.create.name ↔ operation = .create := by
  cases operation <;> decide

theorem SetupInv.setupLine {done : List TraceRequest} {st : Setup} (inv : SetupInv done st)
    (request : TraceRequest) :
    ∃ st', setupLine st request.render = some st' ∧ SetupInv (done ++ [request]) st' := by
  unfold Trace.setupLine
  rw [splitOn_render]
  dsimp only
  by_cases hop : request.operation = .create
  · rw [if_pos (name_eq_create.mpr hop), if_pos (Finset.mem_insert_self _ _)]
    refine ⟨_, rfl, ?_, ?_⟩
    · intro chars
      rw [Finset.mem_insert, inv.futurCreated]
      simp only [List.mem_append, List.mem_singleton, or_and_right, exists_or, exists_eq_left]
      rw [or_comm]
      simp [hop, eq_comm]
    · refine inv.toCreate_append fun hfirst => ?_
      by_contra hnew
      push Not at hnew
      rw [firstOperation_append_self hnew, hop] at hfirst
      exact hfirst rfl
  · rw [if_neg (mt name_eq_create.mp hop)]
    have hfutur : ∀ chars, chars ∈ st.futurCreated ↔
        ∃ r ∈ done ++ [request], r.operation = .create ∧ r.key.chars = chars := by
      intro chars
      rw [inv.futurCreated]
      simp only [List.mem_append, List.mem_singleton, or_and_right, exists_or, exists_eq_left,
        hop, false_and, or_false]
    by_cases hknown : request.key.chars ∈ st.futurCreated
    · rw [if_pos hknown]
      refine ⟨_, rfl, hfutur, inv.toCreate_append fun _ => ?_⟩
      obtain ⟨r, hr, -, hchars⟩ := (inv.futurCreated _).mp hknown
      exact ⟨r, hr, toKey_inj hchars⟩
    · rw [if_neg hknown]
      obtain ⟨number, hnumber⟩ := exists_readHex request.key.chars_ne request.key.isDigit
      refine ⟨⟨st.futurCreated, insert number st.toCreate⟩, by rw [hnumber]; rfl, hfutur,
        fun n => ?_⟩
      have hfirst : firstOperation (done ++ [request]) request.key ≠ some .create := by
        intro hcreate
        obtain ⟨r, hr, hkey, hrop⟩ := exists_of_firstOperation hcreate
        exact hknown ((hfutur _).mpr ⟨r, hr, hrop, by rw [hkey]⟩)
      rw [Finset.mem_insert]
      constructor
      · rintro (rfl | hn)
        · exact ⟨request, by simp, hfirst, hnumber⟩
        · obtain ⟨r, hr, hfirst', hread⟩ := (inv.toCreate n).mp hn
          exact ⟨r, List.mem_append_left _ hr, by rwa [firstOperation_append_of_mem hr],
            hread⟩
      · rintro ⟨r, hr, hfirst', hread⟩
        rcases List.mem_append.mp hr with hr | hr
        · rw [firstOperation_append_of_mem hr] at hfirst'
          exact Or.inr ((inv.toCreate n).mpr ⟨r, hr, hfirst', hread⟩)
        · rw [List.mem_singleton] at hr
          subst hr
          exact Or.inl (Option.some.inj (hread.symm.trans hnumber))

/-- The numbers to create are those of the keys that do not begin with a create. -/
theorem setupMain_render (header : Line) (trace : List TraceRequest) :
    ∃ toCreate, setupMain (header :: trace.map TraceRequest.render) = some toCreate ∧
      ∀ number, number ∈ toCreate ↔
        ∃ request ∈ trace, firstOperation trace request.key ≠ some .create ∧
          readHex request.key.chars = some number := by
  have hloop : ∀ later done st, SetupInv done st →
      ∃ st', (later.map TraceRequest.render).foldlM setupLine st = some st' ∧
        SetupInv (done ++ later) st' := by
    intro later
    induction later with
    | nil => exact fun done st inv => ⟨st, rfl, by rwa [List.append_nil]⟩
    | cons request later ih =>
        intro done st inv
        obtain ⟨next, hnext, hinv⟩ := inv.setupLine request
        obtain ⟨last, hlast, hdone⟩ := ih _ _ hinv
        refine ⟨last, ?_, by rwa [List.append_assoc] at hdone⟩
        rw [List.map_cons, List.foldlM_cons, hnext]
        exact hlast
  obtain ⟨st, hst, hinv⟩ := hloop trace [] ⟨∅, ∅⟩ ⟨by simp, by simp⟩
  exact ⟨st.toCreate, by rw [setupMain, List.tail_cons, hst]; rfl, hinv.toCreate⟩

/-! ## The creates make the trace replayable -/

/-- **Set-up**: of a trace that can be carried out on some store, the creates that the
script prints, in whatever order the set is gone through, and the trace after them can be
carried out on an empty store exactly when every key that does not begin with a create is
spelled as its number is printed. -/
theorem setup_replays_iff (data : Data) (header : Line) (trace : List TraceRequest)
    (initial : Store) (hexec : (executeTrace data initial trace).isSome) :
    ∃ toCreate, setupMain (header :: trace.map TraceRequest.render) = some toCreate ∧
      ∀ order : List Nat, order.Nodup → (∀ number, number ∈ order ↔ number ∈ toCreate) →
        ((executeLines data (fun _ => none)
            (order.map createLine ++ trace.map TraceRequest.operationLine)).isSome ↔
          ∀ request ∈ trace, firstOperation trace request.key ≠ some .create →
            Canonical request.key.chars) := by
  obtain ⟨final, hfinal⟩ := Option.isSome_iff_exists.mp hexec
  obtain ⟨toCreate, hsetup, hnumbers⟩ := setupMain_render header trace
  refine ⟨toCreate, hsetup, fun order hnodup horder => ?_⟩
  obtain ⟨store, hstore, hkeys⟩ :=
    @executeLines_creates data (fun _ => none) order hnodup fun _ _ => rfl
  have hreplay : executeLines data (fun _ => none)
      (order.map createLine ++ trace.map TraceRequest.operationLine) =
        executeTrace data store trace := by
    rw [executeLines_append, hstore]
    rfl
  have hhas : ∀ key : HexKey, (store key.toKey).isSome ↔
      ∃ request ∈ trace, firstOperation trace request.key ≠ some .create ∧
        (readHex request.key.chars).map showHex = some key.chars := by
    intro key
    rw [hkeys key]
    constructor
    · rintro (hnone | ⟨number, hnumber, rfl⟩)
      · cases hnone
      · obtain ⟨request, hmem, hfirst, hread⟩ :=
          (hnumbers number).mp ((horder number).mp hnumber)
        exact ⟨request, hmem, hfirst, by rw [hread]; rfl⟩
    · rintro ⟨request, hmem, hfirst, hprint⟩
      obtain ⟨number, hread, hshow⟩ := Option.map_eq_some_iff.mp hprint
      refine Or.inr ⟨number, (horder number).mpr ((hnumbers number).mpr
        ⟨request, hmem, hfirst, hread⟩), toKey_inj hshow⟩
  have hinitial : ∀ request ∈ trace, (initial request.key.toKey).isSome ↔
      firstOperation trace request.key ≠ some .create := by
    intro request hmem
    obtain ⟨operation, hfirst⟩ := exists_firstOperation hmem
    rw [isSome_of_executeTrace hfinal hfirst, hfirst]
    cases operation <;> simp [Operation.needs]
  rw [hreplay, executeTrace_congr hfinal]
  constructor
  · intro hsame request hmem hfirst
    have hpresent := (hinitial request hmem).mpr hfirst
    rw [← hsame request hmem] at hpresent
    obtain ⟨other, -, -, hprint⟩ := (hhas request.key).mp hpresent
    obtain ⟨number, -, hshow⟩ := Option.map_eq_some_iff.mp hprint
    rw [← hshow]
    exact canonical_showHex number
  · intro hcanonical request hmem
    rw [Bool.eq_iff_iff, hhas request.key, hinitial request hmem]
    constructor
    · rintro ⟨other, hother, hfirst, hprint⟩
      have hkey : other.key = request.key :=
        toKey_inj (Option.some.inj ((hcanonical other hother hfirst).symm.trans hprint))
      rwa [hkey] at hfirst
    · exact fun hfirst => ⟨request, hmem, hfirst, hcanonical request hmem hfirst⟩

/-- Two spellings of one number. -/
def lowerKey : HexKey :=
  ⟨⟨"1f".toList, by decide, by decide⟩,
    by simpa using (by decide : IsDigit '1' ∧ IsDigit 'f')⟩

def upperKey : HexKey :=
  ⟨⟨"1F".toList, by decide, by decide⟩,
    by simpa using (by decide : IsDigit '1' ∧ IsDigit 'F')⟩

/-- A line of a trace with a time and a job of no importance. -/
def sampleRequest (operation : Operation) (key : HexKey) : TraceRequest where
  timestamp := "0.5".toList
  operation := operation
  key := key
  jobid := "7\n".toList
  timestamp_noComma := by decide
  jobid_noComma := by decide

/-- A store with one key. -/
def sampleStore (key : HexKey) : Store :=
  fun k => if k = key.toKey then some .v else none

theorem executeTrace_sample (key : HexKey) :
    (executeTrace .v (sampleStore key) [sampleRequest .get key]).isSome := by
  have hget : execute .v (sampleStore key) .get key.toKey =
      some (sampleStore key) := by
    simp [execute, genericGet_eq_null, sampleStore]
  rw [executeTrace_cons]
  change ((execute _ _ .get key.toKey).bind _).isSome
  rw [hget]
  rfl

/-- A key in lower case. -/
theorem setup_replays_iff_lower :
    ∃ toCreate, setupMain (headers :: [sampleRequest .get lowerKey].map
        TraceRequest.render) = some toCreate ∧
      ∀ order : List Nat, order.Nodup → (∀ number, number ∈ order ↔ number ∈ toCreate) →
        ((executeLines .v (fun _ => none) (order.map createLine ++
            [sampleRequest .get lowerKey].map TraceRequest.operationLine)).isSome ↔
          ∀ request ∈ [sampleRequest .get lowerKey],
            firstOperation [sampleRequest .get lowerKey] request.key ≠ some .create →
              Canonical request.key.chars) :=
  setup_replays_iff .v headers [sampleRequest .get lowerKey]
    (sampleStore lowerKey) (executeTrace_sample lowerKey)

/-- A key in upper case is created in lower case, and is not found. -/
theorem setup_upper_not_replayed :
    ¬ ∀ (trace : List TraceRequest) (initial : Store),
      (executeTrace .v initial trace).isSome →
        ∀ toCreate, setupMain (headers :: trace.map TraceRequest.render) = some toCreate →
          ∀ order : List Nat, order.Nodup → (∀ number, number ∈ order ↔ number ∈ toCreate) →
            (executeLines .v (fun _ => none)
              (order.map createLine ++ trace.map TraceRequest.operationLine)).isSome := by
  intro hall
  obtain ⟨toCreate, hsetup, hnumbers⟩ :=
    setupMain_render headers [sampleRequest .get upperKey]
  have hread : readHex upperKey.chars = some 31 := by decide
  have horder : ∀ number, number ∈ [31] ↔ number ∈ toCreate := by
    intro number
    rw [hnumbers]
    simp [sampleRequest, firstOperation, hread, eq_comm]
  have hsome := hall _ _ (executeTrace_sample upperKey) toCreate hsetup [31]
    (List.nodup_singleton 31) horder
  obtain ⟨store, hstore, hkeys⟩ :=
    @executeLines_creates .v (fun _ => none) [31] (List.nodup_singleton 31)
      fun _ _ => rfl
  have hprinted : printedKey 31 ≠ upperKey := by decide
  have habsent : store upperKey.toKey = none := by
    rw [← Option.not_isSome_iff_eq_none, hkeys upperKey]
    simp [hprinted]
  have hget : execute .v store .get upperKey.toKey = none := by
    simp [execute, genericGet_eq_null, habsent]
  have hnone : executeTrace .v store [sampleRequest .get upperKey] = none := by
    rw [executeTrace_cons]
    change (execute .v store .get upperKey.toKey).bind _ = none
    rw [hget, Option.bind_none]
  rw [executeLines_append, hstore, Option.bind_some] at hsome
  change (executeTrace .v store [sampleRequest .get upperKey]).isSome at hsome
  rw [hnone] at hsome
  cases hsome

end MeDiE.Trace
