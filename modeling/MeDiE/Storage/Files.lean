import MeDiE.Storage.Generic
import MeDiE.Verified.Cells

/-!
# `generic_storage.c` on the file system

Every call builds a path, opens the file and transfers bytes.  `open`, `read`, `write` and
`remove` fail only on a file that exists or is missing, and transfer all the bytes.
`generic_get` reads into ten bytes of its own and terminates them; a write outside of these
is `none`.  The operations of `Storage.Generic` are what the calls come to.
-/

namespace MeDiE.Storage

open MeDiE.Verified.Cells

/-- The end of a C string of characters. -/
abbrev nul : Char := Char.ofNat 0

/-- A C string of characters. -/
structure CString where
  chars : List Char
  noNul : nul ∉ chars
deriving DecidableEq

/-- A key that is the name of a file in a directory. -/
structure FileName extends CString where
  chars_ne : chars ≠ []
  noSlash : '/' ∉ chars
  notDot : chars ≠ ['.']
  notDotDot : chars ≠ ['.', '.']
deriving DecidableEq

/-- A call of the interface. -/
inductive Call (K : Type) where
  | put (key : K) (value : Data)
  | get (key : K)
  | update (key : K) (value : Data)
  | del (key : K)

/-- What a call returns: 0 or -1, or for `generic_get` the bytes of a string or `NULL`. -/
inductive Result where
  | rc (code : Int)
  | data (bytes : Option (List UInt8))
deriving DecidableEq

/-! ## The files -/

/-- The files of a machine by path, with the bytes in them. -/
abbrev Files := List Char → Option (List UInt8)

/-- `STORE`. -/
def storeDir : List Char := "/dev/shm/".toList

/-- The path that `asprintf` builds. -/
def path (key : FileName) : List Char := storeDir ++ key.chars

/-- `open` with `O_WRONLY | O_EXCL | O_CREAT`. -/
def openExcl (files : Files) (path : List Char) : Option Files :=
  match files path with
  | some _ => none
  | none => some (Function.update files path (some []))

/-- `open` with `O_WRONLY | O_TRUNC`. -/
def openTrunc (files : Files) (path : List Char) : Option Files :=
  match files path with
  | some _ => some (Function.update files path (some []))
  | none => none

/-- `write` at the start of an open file: what is behind the bytes stays. -/
def writeStart (files : Files) (path : List Char) (bytes : List UInt8) : Files :=
  Function.update files path (some (bytes ++ ((files path).getD []).drop bytes.length))

/-- `generic_put`. -/
def filePut (files : Files) (key : FileName) (value : Data) : Result × Files :=
  match openExcl files (path key) with
  | none => (.rc (-1), files)
  | some files => (.rc 0, writeStart files (path key) value.bytes)

/-- `generic_update`. -/
def fileUpdate (files : Files) (key : FileName) (value : Data) : Result × Files :=
  match openTrunc files (path key) with
  | none => (.rc (-1), files)
  | some files => (.rc 0, writeStart files (path key) value.bytes)

/-- `generic_del`. -/
def fileDel (files : Files) (key : FileName) : Result × Files :=
  match files (path key) with
  | none => (.rc (-1), files)
  | some _ => (.rc 0, Function.update files (path key) none)

/-- The C string at the start of a buffer, whose cells may not have been written. -/
def stringIn : List (Option UInt8) → Option (List UInt8)
  | [] => none
  | none :: _ => none
  | some c :: cells => if c = 0 then some [] else (stringIn cells).map (c :: ·)

/-- `generic_get`: `malloc(10)`, `read` of ten bytes, `data[rc] = '\0'`. -/
def fileGet (files : Files) (key : FileName) : Option (Result × Files) :=
  match files (path key) with
  | none => some (.data none, files)
  | some content => do
      let bytes := content.take 10
      let data := bytes.map some ++ List.replicate (10 - bytes.length) none
      let data ← writeCell data bytes.length (some 0)
      let value ← stringIn data
      some (.data (some value), files)

/-- Carry out a call. -/
def fileCall (files : Files) : Call FileName → Option (Result × Files)
  | .put key value => some (filePut files key value)
  | .get key => fileGet files key
  | .update key value => some (fileUpdate files key value)
  | .del key => some (fileDel files key)

/-- Carry out calls, collecting what they return. -/
def fileRun (files : Files) : List (Call FileName) → Option (List Result × Files)
  | [] => some ([], files)
  | call :: calls => do
      let (result, files) ← fileCall files call
      let (results, files) ← fileRun files calls
      some (result :: results, files)

/-! ## The calls of `Storage.Generic` -/

section Generic

variable {K : Type} [DecidableEq K]

/-- Carry out a call by the operations on a store: `none` is a write behind the buffer. -/
def genericCall (store : K → Option Data) : Call K → Option (Result × (K → Option Data))
  | .put key value =>
      match genericPut store key value with
      | none => some (.rc (-1), store)
      | some store => some (.rc 0, store)
  | .get key =>
      match genericGet store key with
      | .null => some (.data none, store)
      | .value data => some (.data (some data.bytes), store)
      | .overrun => none
  | .update key value =>
      match genericUpdate store key value with
      | none => some (.rc (-1), store)
      | some store => some (.rc 0, store)
  | .del key =>
      match genericDel store key with
      | none => some (.rc (-1), store)
      | some store => some (.rc 0, store)

/-! ## The finite map -/

/-- The finite map the storage is meant to be. -/
def mapCall (map : K → Option Data) : Call K → Result × (K → Option Data)
  | .put key value =>
      match map key with
      | some _ => (.rc (-1), map)
      | none => (.rc 0, Function.update map key (some value))
  | .get key => (.data ((map key).map Data.bytes), map)
  | .update key value =>
      match map key with
      | some _ => (.rc 0, Function.update map key (some value))
      | none => (.rc (-1), map)
  | .del key =>
      match map key with
      | some _ => (.rc 0, Function.update map key none)
      | none => (.rc (-1), map)

def mapRun (map : K → Option Data) : List (Call K) → List Result × (K → Option Data)
  | [] => ([], map)
  | call :: calls =>
      let (result, map) := mapCall map call
      let (results, map) := mapRun map calls
      (result :: results, map)

/-- The call is not a `generic_get` of a value of ten bytes or more. -/
def Call.Fits (map : K → Option Data) : Call K → Prop
  | .get key => ∀ value ∈ map key, value.bytes.length < 10
  | _ => True

/-- No `generic_get` of the sequence meets a value of ten bytes or more. -/
def GetsFit (map : K → Option Data) : List (Call K) → Prop
  | [] => True
  | call :: calls => call.Fits map ∧ GetsFit (mapCall map call).2 calls

/-- A call that fails leaves the map as it is. -/
theorem mapCall_failed {map : K → Option Data} {call : Call K}
    (h : (mapCall map call).1 = .rc (-1)) : (mapCall map call).2 = map := by
  cases call with
  | put key value =>
      cases hmap : map key with
      | some old => simp [mapCall, hmap]
      | none => simp [mapCall, hmap] at h
  | get key => rfl
  | update key value =>
      cases hmap : map key with
      | some old => simp [mapCall, hmap] at h
      | none => simp [mapCall, hmap]
  | del key =>
      cases hmap : map key with
      | some old => simp [mapCall, hmap] at h
      | none => simp [mapCall, hmap]

/-- The key a call is about. -/
def Call.key : Call K → K
  | put key _ => key
  | get key => key
  | update key _ => key
  | del key => key

/-- A call leaves the other keys as they are. -/
theorem mapCall_other (map : K → Option Data) (call : Call K) {key : K}
    (h : key ≠ call.key) : (mapCall map call).2 key = map key := by
  cases call with
  | get k => rfl
  | put k value | update k value | del k =>
      have hk : key ≠ k := h
      cases hmap : map k <;> simp [mapCall, hmap, hk]

/-- The operations are those of the finite map, but for a long value that is read. -/
theorem genericCall_eq_mapCall {map : K → Option Data} {call : Call K} (h : call.Fits map) :
    genericCall map call = some (mapCall map call) := by
  cases call with
  | put key value => cases hmap : map key <;> simp [genericCall, genericPut, mapCall, hmap]
  | get key =>
      cases hmap : map key with
      | none => simp [genericCall, genericGet, mapCall, hmap]
      | some value => simp [genericCall, genericGet, mapCall, hmap, h value hmap]
  | update key value =>
      cases hmap : map key <;> simp [genericCall, genericUpdate, mapCall, hmap]
  | del key => cases hmap : map key <;> simp [genericCall, genericDel, mapCall, hmap]

end Generic

/-! ## Refinement -/

/-- The directory holds the store, a file per key. -/
def Stores (files : Files) (store : FileName → Option Data) : Prop :=
  ∀ key, files (path key) = (store key).map Data.bytes

theorem FileName.ext_chars {key key' : FileName} (h : key.chars = key'.chars) : key = key' := by
  obtain ⟨⟨chars, _⟩, _⟩ := key
  obtain ⟨⟨chars', _⟩, _⟩ := key'
  cases h
  rfl

/-- Different keys are different files. -/
theorem path_inj {key key' : FileName} (h : path key = path key') : key = key' :=
  FileName.ext_chars (List.append_cancel_left h)

theorem Stores.update {files : Files} {store : FileName → Option Data}
    (h : Stores files store) (key : FileName) (value : Option Data) :
    Stores (Function.update files (path key) (value.map Data.bytes))
      (Function.update store key value) := by
  intro key'
  by_cases hkey : key' = key
  · subst hkey
    rw [Function.update_self, Function.update_self]
  · rw [Function.update_of_ne fun hpath => hkey (path_inj hpath),
      Function.update_of_ne hkey, h key']

/-- A file that has just been created or cut off holds what is written. -/
theorem writeStart_empty (files : Files) (path : List Char) (bytes : List UInt8) :
    writeStart (Function.update files path (some [])) path bytes =
      Function.update files path (some bytes) := by
  simp [writeStart]

theorem stringIn_terminated (bytes : List UInt8) (h : 0 ∉ bytes)
    (cells : List (Option UInt8)) :
    stringIn (bytes.map some ++ some 0 :: cells) = some bytes := by
  induction bytes with
  | nil => rfl
  | cons c bytes ih =>
      rw [List.mem_cons, not_or] at h
      rw [List.map_cons, List.cons_append, stringIn, if_neg (Ne.symm h.1), ih h.2]
      rfl

/-- A value that leaves room for the end of the string is returned as it is. -/
theorem fileGet_of_lt {files : Files} {key : FileName} {value : Data}
    (h : files (path key) = some value.bytes) (hlt : value.bytes.length < 10) :
    fileGet files key = some (.data (some value.bytes), files) := by
  obtain ⟨spare, hspare⟩ : ∃ spare, 10 - value.bytes.length = spare + 1 :=
    ⟨9 - value.bytes.length, by omega⟩
  have htake : value.bytes.take 10 = value.bytes := List.take_of_length_le hlt.le
  have hlen : value.bytes.length = (value.bytes.map some).length := by simp
  simp only [fileGet, h, htake, hspare, List.replicate_succ]
  rw [hlen, writeCell_append]
  simp only [Option.bind_eq_bind, Option.bind_some, stringIn_terminated _ value.noNul]

/-- A longer value has its terminator written behind the buffer. -/
theorem fileGet_of_le {files : Files} {key : FileName} {content : List UInt8}
    (h : files (path key) = some content) (hle : 10 ≤ content.length) :
    fileGet files key = none := by
  have htake : (content.take 10).length = 10 := by simpa using hle
  simp only [fileGet, h, htake]
  rw [writeCell_eq_none (by simp)]
  rfl

/-- Every call on the files is the call on the store: it returns the same and leaves the
same behind, and it writes behind the buffer if the other one does. -/
theorem Stores.call {files : Files} {store : FileName → Option Data} (h : Stores files store)
    (call : Call FileName) :
    match genericCall store call with
    | none => fileCall files call = none
    | some (result, store') =>
        ∃ files', fileCall files call = some (result, files') ∧ Stores files' store' := by
  cases call with
  | put key value =>
      have hkey := h key
      cases hstore : store key with
      | some old =>
          simpa [genericCall, genericPut, fileCall, filePut, openExcl, hkey, hstore] using h
      | none =>
          simpa [genericCall, genericPut, fileCall, filePut, openExcl, hkey, hstore,
            writeStart_empty] using h.update key (some value)
  | get key =>
      have hkey := h key
      cases hstore : store key with
      | none => simpa [genericCall, genericGet, fileCall, fileGet, hkey, hstore] using h
      | some value =>
          rw [hstore] at hkey
          by_cases hlt : value.bytes.length < 10
          · simpa [genericCall, genericGet, fileCall, hstore, hlt, fileGet_of_lt hkey hlt] using h
          · simpa [genericCall, genericGet, fileCall, hstore, hlt] using
              fileGet_of_le hkey (Nat.le_of_not_lt hlt)
  | update key value =>
      have hkey := h key
      cases hstore : store key with
      | some old =>
          simpa [genericCall, genericUpdate, fileCall, fileUpdate, openTrunc, hkey, hstore,
            writeStart_empty] using h.update key (some value)
      | none =>
          simpa [genericCall, genericUpdate, fileCall, fileUpdate, openTrunc, hkey, hstore] using h
  | del key =>
      have hkey := h key
      cases hstore : store key with
      | some old =>
          simpa [genericCall, genericDel, fileCall, fileDel, hkey, hstore] using h.update key none
      | none => simpa [genericCall, genericDel, fileCall, fileDel, hkey, hstore] using h

/-- A call that fits is the call on the map. -/
theorem Stores.fits {files : Files} {map : FileName → Option Data} (h : Stores files map)
    {call : Call FileName} (hfit : call.Fits map) :
    ∃ files', fileCall files call = some ((mapCall map call).1, files') ∧
      Stores files' (mapCall map call).2 := by
  have hcall := h.call call
  rwa [genericCall_eq_mapCall hfit] at hcall

/-- **The storage is a finite map**: whatever calls are made, with values of any length, they
return what the map returns and leave the directory holding the map, as long as
`generic_get` is used on values of less than ten bytes.  In the map a call that fails
changes nothing, and no call changes another key. -/
theorem fileRun_eq_mapRun {files : Files} {map : FileName → Option Data}
    (h : Stores files map) (calls : List (Call FileName)) (hfit : GetsFit map calls) :
    (∃ files', fileRun files calls = some ((mapRun map calls).1, files') ∧
      Stores files' (mapRun map calls).2) ∧
    ∀ (map : FileName → Option Data) (call : Call FileName),
      ((mapCall map call).1 = .rc (-1) → (mapCall map call).2 = map) ∧
        ∀ key, key ≠ call.key → (mapCall map call).2 key = map key := by
  refine ⟨?_, fun map call => ⟨mapCall_failed, fun key => mapCall_other map call⟩⟩
  induction calls generalizing files map with
  | nil => exact ⟨files, rfl, h⟩
  | cons call calls ih =>
      obtain ⟨next, hcall, hnext⟩ := h.fits hfit.1
      obtain ⟨last, hrun, hlast⟩ := ih hnext hfit.2
      exact ⟨last, by simp [fileRun, mapRun, hcall, hrun], hlast⟩

/-- A key and two values, one that fits into the buffer of `generic_get` and one that is a
byte too long. -/
def sampleKey : FileName :=
  ⟨⟨"a_key".toList, by decide⟩, by decide, by decide, by decide, by decide⟩

/-- "trololo" -/
def shortValue : Data := ⟨[116, 114, 111, 108, 111, 108, 111], by decide⟩

/-- "ten bytes!" -/
def longValue : Data := ⟨[116, 101, 110, 32, 98, 121, 116, 101, 115, 33], by decide⟩

/-- A long value is replaced by a short one before it is read. -/
def sampleCalls : List (Call FileName) :=
  [.put sampleKey longValue, .update sampleKey shortValue, .get sampleKey]

theorem fileRun_eq_mapRun_three :
    ∃ files', fileRun (fun _ => none) sampleCalls =
        some ([.rc 0, .rc 0, .data (some shortValue.bytes)], files') ∧
      Stores files' (mapRun (fun _ => none) sampleCalls).2 := by
  have hfit : GetsFit (fun _ => none) sampleCalls := by
    refine ⟨trivial, trivial, fun value hvalue => ?_, trivial⟩
    have heq : shortValue = value := Option.some.inj hvalue
    subst heq
    decide
  exact (fileRun_eq_mapRun (fun _ => rfl) sampleCalls hfit).1

/-- A value of ten bytes is accepted, but reading it writes behind the buffer. -/
theorem fileRun_ten_bytes :
    ¬ ∀ calls : List (Call FileName), ∃ files', fileRun (fun _ => none) calls =
      some ((mapRun (fun _ => none) calls).1, files') := by
  intro hall
  obtain ⟨files', hrun⟩ := hall [.put sampleKey longValue, .get sampleKey]
  have hget : fileGet (filePut (fun _ => none) sampleKey longValue).2 sampleKey = none :=
    @fileGet_of_le _ _ longValue.bytes (by decide) (by decide)
  simp [fileRun, fileCall, hget] at hrun

end MeDiE.Storage
