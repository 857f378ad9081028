import MeDiE.Storage.Generic

/-!
# Lists of names and the packets they travel in

`md_entry.c` keeps the names of the keys of an entry in a linked list.  To send
an entry, `thread_load_sender` takes the names out of the list one by one and
appends each, after a comma, to a string; `thread_load_receiver` splits the
string again with `strtok`.  The lengths that are sent along are kept in step
with the strings by the types.
-/

namespace MeDiE.Server

open MeDiE.Storage

/-! ## `md_entry.c` -/

/-- `md_entry_insert`. -/
def mdEntryInsert {E : Type} (head : List E) (elem : E) : List E := elem :: head

/-- `md_entry_pop`: the name taken out and the list that is left. -/
def mdEntryPop : List Key → Option (Key × List Key)
  | [] => none
  | temp :: head => some (temp, head)

/-- `md_entry_search_md_name`: the list without the name, if it was there. -/
def mdEntrySearchMdName : List Key → Key → Option (List Key)
  | [], _ => none
  | current :: next, name =>
      if current = name then some next
      else (mdEntrySearchMdName next name).map (current :: ·)

theorem mdEntrySearchMdName_eq (head : List Key) (name : Key) :
    mdEntrySearchMdName head name =
      if name ∈ head then some (head.erase name) else none := by
  induction head with
  | nil => simp [mdEntrySearchMdName]
  | cons current next ih =>
      rw [mdEntrySearchMdName, ih]
      by_cases hc : current = name
      · simp [hc]
      · have hne : ¬ name = current := fun heq => hc heq.symm
        by_cases hmem : name ∈ next <;> simp [hc, hne, hmem]

/-! ## Packets -/

variable {n : Nat}

/-- The frames of a packet while the names are being put into it. -/
structure Packing (n : Nat) where
  entry : Fin n
  mdNames : List Char
  mdNamesLength : Nat
  length_eq : mdNamesLength = mdNames.length

/-- A packet.  `mdNames` is the string without the terminator, which is counted
in the announced length. -/
structure Packet (n : Nat) where
  entry : Fin n
  mdNames : List Char
  mdNamesLength : Nat
  length_eq : mdNamesLength = mdNames.length + 1

/-- The start of the packing loop. -/
def Packing.start (entry : Fin n) : Packing n where
  entry := entry
  mdNames := []
  mdNamesLength := 0
  length_eq := rfl

/-- One round of the packing loop. -/
def Packing.append (packet : Packing n) (name : Key) : Packing n where
  entry := packet.entry
  mdNames := packet.mdNames ++ ',' :: name.chars
  mdNamesLength := packet.mdNamesLength + (1 + name.chars.length)
  length_eq := by
    rw [packet.length_eq, List.length_append, List.length_cons, Nat.add_comm 1]

/-- The end of the packing loop. -/
def Packing.finish (packet : Packing n) : Packet n where
  entry := packet.entry
  mdNames := packet.mdNames
  mdNamesLength := packet.mdNamesLength + 1
  length_eq := by rw [packet.length_eq]

/-- A token, if `strtok` does not skip it. -/
def token (chars : List Char) : Option Key :=
  if h : chars ≠ [] ∧ ',' ∉ chars then some ⟨chars, h.1, h.2⟩ else none

/-- The tokens that `strtok` finds in a string. -/
def strtok (chars : List Char) : List Key :=
  (chars.splitOn ',').filterMap token

/-- The names that are unpacked from a packet. -/
def Packet.names (packet : Packet n) : List Key :=
  strtok (packet.mdNames.take packet.mdNamesLength)

theorem token_chars (name : Key) : token name.chars = some name := by
  rw [token, dif_pos ⟨name.chars_ne, name.noComma⟩]

theorem strtok_append (chars : List Char) (name : Key) :
    strtok (chars ++ ',' :: name.chars) = strtok chars ++ [name] := by
  rw [strtok, List.splitOn_append_cons_self, List.filterMap_append,
    List.splitOn_eq_singleton name.noComma, List.filterMap_cons, token_chars]
  rfl

@[simp] theorem strtok_start (entry : Fin n) :
    strtok (Packing.start entry).mdNames = [] := by
  simp [strtok, Packing.start, token]

@[simp] theorem strtok_packing_append (packet : Packing n) (name : Key) :
    strtok (packet.append name).mdNames = strtok packet.mdNames ++ [name] :=
  strtok_append packet.mdNames name

/-- The receiver finds the names that the sender has put in. -/
@[simp] theorem names_finish (packet : Packing n) :
    packet.finish.names = strtok packet.mdNames := by
  rw [Packet.names, List.take_of_length_le]
  · rfl
  · rw [packet.finish.length_eq]
    exact Nat.le_succ _

end MeDiE.Server
