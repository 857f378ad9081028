import MeDiE.Server.Hosts
import MeDiE.Storage.Files
import MeDiE.Trace.Setup

/-!
# The reading loop of `client.c`

The client reads as many lines as it has requests to send, each with `fgets` into a buffer
of `MAX_SIZE` characters, and cuts them up with `strtok`.  A line that is longer than the
buffer is not skipped to its end, so its rest is read as the next line.  A null pointer
handed to `strcmp` and a file that ends early are `none`.
-/

namespace MeDiE.Client

open MeDiE.Server
open MeDiE.Storage
open MeDiE.Trace

/-- `MAX_SIZE`. -/
def maxSize : Nat := 50

/-- A key as it can stand in a line. -/
structure LineKey extends CString where
  chars_ne : chars ≠ []
  noComma : ',' ∉ chars
  noNewline : '\n' ∉ chars

/-- What stands in a line of the file. -/
structure FileLine where
  operation : Operation
  key : LineKey

/-- The line `op,key`. -/
def FileLine.render (line : FileLine) : List Char :=
  line.operation.name ++ ',' :: line.key.chars

/-- The file; whether its last line has an end is left open. -/
def traceFile (ended : Bool) : List FileLine → List Char
  | [] => []
  | [line] => line.render ++ if ended then ['\n'] else []
  | line :: lines => line.render ++ '\n' :: traceFile ended lines

/-! ## The loop -/

/-- `strtok` with the delimiter `,`, from where it goes on: the token and what is left. -/
def strtok (s : List Char) : Option (List Char × List Char) :=
  match s.dropWhile (· = ',') with
  | [] => none
  | c :: cs =>
      some ((c :: cs).takeWhile (· ≠ ','), ((c :: cs).dropWhile (· ≠ ',')).tail)

/-- The number of an operation in `type_list`. -/
def typeNumber : Operation → Nat
  | .create => 1
  | .get => 2
  | .update => 3
  | .delete => 4

/-- A pair of entries of `type_list` and `key_list`.  A type that is not recognised leaves
the entry as it was allocated. -/
structure Entry where
  type : Option Nat
  key : List Char
deriving DecidableEq

/-- The part of a round after the line has been read.  A null pointer is printed as
`(null)`. -/
def parseLine (line : List Char) : Option Entry := do
  let (type, rest) ← strtok line
  let key := (strtok rest).map Prod.fst
  some ⟨(operationOf type).map typeNumber, key.getD "(null)".toList⟩

/-- The rounds of the loop: the two lists. -/
def readLoop : Nat → List Char → Option (List Entry)
  | 0, _ => some []
  | nbReq + 1, fd => do
      let (aLine, fd) ← fgets maxSize fd
      let entry ← parseLine (chomp aLine)
      let entries ← readLoop nbReq fd
      some (entry :: entries)

/-! ## Lines that fit -/

/-- What the two lists are to hold for a line. -/
def FileLine.entry (line : FileLine) : Entry :=
  ⟨some (typeNumber line.operation), line.key.chars⟩

/-- Every line has room in the buffer together with its end; the end of the last line is
not needed. -/
def FitBuffer : List FileLine → Prop
  | [] => True
  | [line] => line.render.length < maxSize
  | line :: lines => line.render.length + 1 < maxSize ∧ FitBuffer lines

/-! ## One line -/

theorem name_ne_nil (operation : Operation) : operation.name ≠ [] := by
  cases operation <;> decide

theorem length_name_le (operation : Operation) : operation.name.length ≤ 6 := by
  cases operation <;> decide

theorem newline_notMem_render (line : FileLine) : '\n' ∉ line.render := by
  have hname : '\n' ∉ line.operation.name := by cases line.operation <;> decide
  simp [FileLine.render, hname, line.key.noNewline]

/-- A token up to the next comma. -/
theorem strtok_append {token rest : List Char} (hne : token ≠ []) (htoken : ',' ∉ token) :
    strtok (token ++ ',' :: rest) = some (token, rest) := by
  obtain ⟨c, cs, rfl⟩ := List.exists_cons_of_ne_nil hne
  have hall : ∀ x ∈ c :: cs, decide (x ≠ ',') = true := fun x hx =>
    decide_eq_true fun heq => htoken (heq ▸ hx)
  have hdrop : ((c :: cs) ++ ',' :: rest).dropWhile (· = ',') = (c :: cs) ++ ',' :: rest := by
    have hc : c ≠ ',' := by simpa using hall c (by simp)
    simp [hc]
  rw [strtok, hdrop]
  simp only [List.cons_append]
  rw [← List.cons_append, List.takeWhile_append_of_pos hall, List.dropWhile_append_of_pos hall]
  simp

/-- A token up to the end of the string. -/
theorem strtok_last {token : List Char} (hne : token ≠ []) (htoken : ',' ∉ token) :
    strtok token = some (token, []) := by
  obtain ⟨c, cs, rfl⟩ := List.exists_cons_of_ne_nil hne
  have hall : ∀ x ∈ c :: cs, decide (x ≠ ',') = true := fun x hx =>
    decide_eq_true fun heq => htoken (heq ▸ hx)
  have hdrop : (c :: cs).dropWhile (· = ',') = c :: cs := by
    have hc : c ≠ ',' := by simpa using hall c (by simp)
    simp [hc]
  rw [strtok, hdrop]
  simp only [List.takeWhile_eq_self_iff.mpr hall, List.dropWhile_eq_nil_iff.mpr hall,
    List.tail_nil]

/-- An operation with some key behind the comma is recognised, and the key taken. -/
theorem parseLine_append (operation : Operation) {key : List Char} (hne : key ≠ [])
    (hkey : ',' ∉ key) :
    parseLine (operation.name ++ ',' :: key) =
      some ⟨some (typeNumber operation), key⟩ := by
  rw [parseLine, strtok_append (name_ne_nil operation) (name_noComma operation)]
  simp only [Option.bind_eq_bind, Option.bind_some, strtok_last hne hkey, operationOf_name,
    Option.map_some, Option.getD_some]

theorem parseLine_render (line : FileLine) : parseLine line.render = some line.entry :=
  parseLine_append line.operation line.key.chars_ne line.key.noComma

/-- A line that has been cut off after the comma loses characters of its key. -/
theorem parseLine_take (line : FileLine) {room : Nat} (hroom : 7 < room)
    (hlen : room < line.render.length) :
    ∃ entry, parseLine (line.render.take room) = some entry ∧ entry ≠ line.entry := by
  have hname := length_name_le line.operation
  obtain ⟨kept, hkept⟩ : ∃ kept, room = line.operation.name.length + (kept + 1) :=
    ⟨room - line.operation.name.length - 1, by omega⟩
  have hlen' : kept < line.key.chars.length := by
    rw [FileLine.render, List.length_append, List.length_cons] at hlen
    omega
  have htake : line.render.take room =
      line.operation.name ++ ',' :: line.key.chars.take kept := by
    rw [FileLine.render, hkept, List.take_length_add_append, List.take_succ_cons]
  have hshort : (line.key.chars.take kept).length = kept := by
    rw [List.length_take]
    omega
  refine ⟨⟨some (typeNumber line.operation), line.key.chars.take kept⟩, ?_, ?_⟩
  · rw [htake]
    refine parseLine_append line.operation ?_ fun hmem =>
      line.key.noComma (List.mem_of_mem_take hmem)
    intro hnil
    rw [hnil] at hshort
    simp at hshort
    omega
  · intro heq
    have hkey : line.key.chars.take kept = line.key.chars := congrArg Entry.key heq
    rw [hkey] at hshort
    omega

/-! ## One read -/

/-- A line that is longer than the room is read up to there. -/
theorem fgetsChars_full {line : List Char} (hline : '\n' ∉ line) {room : Nat}
    (hroom : room ≤ line.length) (after : List Char) :
    fgetsChars room (line ++ after) = (line.take room, line.drop room ++ after) := by
  induction line generalizing room with
  | nil =>
      obtain rfl : room = 0 := by simpa using hroom
      simp [fgetsChars]
  | cons c line ih =>
      rw [List.mem_cons, not_or] at hline
      cases room with
      | zero => simp [fgetsChars]
      | succ room =>
          rw [List.cons_append, fgetsChars, if_neg (Ne.symm hline.1),
            ih hline.2 (by simpa using hroom)]
          rfl

/-- The last line of a file without a newline is read up to the end. -/
theorem fgetsChars_end {line : List Char} (hline : '\n' ∉ line) {room : Nat}
    (hroom : line.length < room) : fgetsChars room line = (line, []) := by
  induction line generalizing room with
  | nil =>
      obtain ⟨room, rfl⟩ : ∃ k, room = k + 1 := ⟨room - 1, by simp at hroom; omega⟩
      rfl
  | cons c line ih =>
      rw [List.mem_cons, not_or] at hline
      rw [List.length_cons] at hroom
      obtain ⟨room, rfl⟩ : ∃ k, room = k + 1 := ⟨room - 1, by omega⟩
      rw [fgetsChars, if_neg (Ne.symm hline.1), ih hline.2 (by omega)]

theorem chomp_of_notMem {line : List Char} (hline : '\n' ∉ line) : chomp line = line := by
  rw [chomp, List.takeWhile_eq_self_iff]
  intro c hc
  exact decide_eq_true fun heq => hline (heq ▸ hc)

/-- What is read of a line, and where the next read begins. -/
theorem fgets_render (line : FileLine) {after : List Char}
    (hafter : after = [] ∨ ∃ rest, after = '\n' :: rest) :
    ∃ aLine fd, fgets maxSize (line.render ++ after) = some (aLine, fd) ∧
      chomp aLine = line.render.take (maxSize - 1) ∧
      (line.render.length + 1 < maxSize → fd = after.tail) ∧
      (line.render.length + 1 = maxSize → fd = after) := by
  have hline := newline_notMem_render line
  have hfgets : fgets maxSize (line.render ++ after) =
      some (fgetsChars (maxSize - 1) (line.render ++ after)) := by
    obtain ⟨c, cs, hcons⟩ := List.exists_cons_of_ne_nil
      (show line.render ++ after ≠ [] by simp [FileLine.render])
    rw [hcons]
    rfl
  rw [hfgets]
  by_cases hfull : maxSize - 1 ≤ line.render.length
  · refine ⟨_, _, congrArg some (fgetsChars_full hline hfull after), ?_, ?_, ?_⟩
    · exact chomp_of_notMem fun hmem => hline (List.mem_of_mem_take hmem)
    · intro hlt
      unfold maxSize at hfull hlt
      omega
    · intro heq
      unfold maxSize at heq ⊢
      rw [List.drop_of_length_le (by omega), List.nil_append]
  · have hroom : line.render.length < maxSize - 1 := by omega
    rw [List.take_of_length_le hroom.le]
    rcases hafter with rfl | ⟨rest, rfl⟩
    · refine ⟨line.render, [], ?_, chomp_of_notMem hline, fun _ => rfl, fun heq => by omega⟩
      rw [List.append_nil, fgetsChars_end hline hroom]
    · exact ⟨line.render ++ ['\n'], rest, congrArg some (fgetsChars_line hline hroom),
        chomp_line hline, fun _ => rfl, fun heq => by omega⟩

theorem readLoop_succ {nbReq : Nat} {fd fd' aLine : List Char} {entry : Entry}
    (hfgets : fgets maxSize fd = some (aLine, fd'))
    (hentry : parseLine (chomp aLine) = some entry) :
    readLoop (nbReq + 1) fd = (readLoop nbReq fd').map (entry :: ·) := by
  rw [readLoop, hfgets]
  simp only [Option.bind_eq_bind, Option.bind_some, hentry]
  cases readLoop nbReq fd' <;> rfl

/-- A newline that was left behind makes an empty line, in which there is no token. -/
theorem readLoop_newline (nbReq : Nat) (fd : List Char) :
    readLoop (nbReq + 1) ('\n' :: fd) = none := by
  have hfgets : fgets maxSize ('\n' :: fd) = some (['\n'], fd) := rfl
  rw [readLoop, hfgets]
  rfl

/-- A line that is too long makes a wrong entry. -/
theorem readLoop_long (line : FileLine) {after : List Char}
    (hafter : after = [] ∨ ∃ rest, after = '\n' :: rest) (hlong : maxSize ≤ line.render.length)
    (nbReq : Nat) (entries : List Entry) :
    readLoop (nbReq + 1) (line.render ++ after) ≠ some (line.entry :: entries) := by
  obtain ⟨aLine, fd, hfgets, hchomp, -, -⟩ := fgets_render line hafter
  obtain ⟨entry, hparse, hne⟩ := parseLine_take line (show 7 < maxSize - 1 by decide)
    (show maxSize - 1 < line.render.length by unfold maxSize at hlong ⊢; omega)
  rw [readLoop_succ hfgets (by rw [hchomp, hparse])]
  intro hsome
  obtain ⟨rest, -, hcons⟩ := Option.map_eq_some_iff.mp hsome
  exact hne (List.cons.inj hcons).1

/-- A line that fits is read, and the file goes on behind it. -/
theorem readLoop_short (line : FileLine) {after : List Char}
    (hafter : after = [] ∨ ∃ rest, after = '\n' :: rest) (nbReq : Nat)
    (hshort : line.render.length + 1 < maxSize ∨
      nbReq = 0 ∧ line.render.length < maxSize) :
    readLoop (nbReq + 1) (line.render ++ after) =
      (readLoop nbReq after.tail).map (line.entry :: ·) := by
  obtain ⟨aLine, fd, hfgets, hchomp, hnext, -⟩ := fgets_render line hafter
  have hparse : parseLine (chomp aLine) = some line.entry := by
    rw [hchomp, List.take_of_length_le (by omega), parseLine_render]
  rw [readLoop_succ hfgets hparse]
  rcases hshort with hshort | ⟨rfl, -⟩
  · rw [hnext hshort]
  · rfl

/-! ## The whole file -/

/-- **Reading the trace**: the two lists hold the operations and the keys of the lines of the
file exactly when the lines fit into the buffer. -/
theorem readLoop_eq_iff (ended : Bool) (lines : List FileLine) :
    readLoop lines.length (traceFile ended lines) = some (lines.map FileLine.entry) ↔
      FitBuffer lines := by
  induction lines with
  | nil => simp [readLoop, FitBuffer]
  | cons line lines ih =>
      cases lines with
      | nil =>
          have hafter : (if ended then ['\n'] else []) = [] ∨
              ∃ rest, (if ended then ['\n'] else []) = '\n' :: rest := by
            cases ended
            · exact Or.inl rfl
            · exact Or.inr ⟨[], rfl⟩
          change readLoop (0 + 1) (line.render ++ _) = some [line.entry] ↔
            line.render.length < maxSize
          by_cases hfits : line.render.length < maxSize
          · rw [readLoop_short line hafter 0 (Or.inr ⟨rfl, hfits⟩)]
            exact iff_of_true rfl hfits
          · exact iff_of_false (readLoop_long line hafter (Nat.le_of_not_lt hfits) 0 []) hfits
      | cons next lines =>
          have hafter : '\n' :: traceFile ended (next :: lines) = [] ∨
              ∃ rest, '\n' :: traceFile ended (next :: lines) = '\n' :: rest :=
            Or.inr ⟨_, rfl⟩
          change readLoop (lines.length + 1 + 1) (line.render ++ '\n' :: _) =
              some (line.entry :: _) ↔
            line.render.length + 1 < maxSize ∧ FitBuffer (next :: lines)
          by_cases hfits : line.render.length + 1 < maxSize
          · rw [readLoop_short line hafter _ (Or.inl hfits), List.tail_cons]
            simp only [hfits, true_and, ← ih]
            simp
          · refine iff_of_false ?_ fun hboth => hfits hboth.1
            by_cases hlong : maxSize ≤ line.render.length
            · exact readLoop_long line hafter hlong _ _
            · -- the line is read without its end, and the end as the next line
              obtain ⟨aLine, fd, hfgets, hchomp, -, hleft⟩ := fgets_render line hafter
              have hparse : parseLine (chomp aLine) = some line.entry := by
                rw [hchomp, List.take_of_length_le (by omega), parseLine_render]
              rw [readLoop_succ hfgets hparse, hleft (by omega), readLoop_newline]
              simp

/-- A key of fifty characters. -/
def longKey : LineKey :=
  ⟨⟨List.replicate 50 'z', by decide⟩, by decide, by decide, by decide⟩

/-- A file of one line with a long key is not read as it is. -/
theorem readLoop_long_key :
    ¬ ∀ lines : List FileLine, readLoop lines.length (traceFile true lines) =
      some (lines.map FileLine.entry) := by
  intro hall
  exact readLoop_long ⟨.get, longKey⟩ (Or.inr ⟨[], rfl⟩) (by decide) 0 []
    (hall [⟨.get, longKey⟩])

end MeDiE.Client
