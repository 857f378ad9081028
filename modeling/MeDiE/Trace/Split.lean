import Mathlib.Data.List.TakeWhile
import MeDiE.Verified.Chunks

/-!
# `split.py`

A trace is a file with a header and lines `timestamp,operation,key,jobid`.  The
script writes the lines, without their timestamps, into parts: a part ends before
the first line that is a step or more later than the first line of the part.

A file is the list of its lines.  The last field of a line is taken with the end
of the line, so that a last line without one is a line too.  Timestamps are of any
ordered type with an addition, for which `float` stands for the conversion: the
`float` of the script is one, but for `nan`.
-/

namespace MeDiE.Trace

open MeDiE.Verified.Chunks

/-- A line of a file. -/
abbrev Line := List Char

/-- `','.join(HEADERS)`, with the end of the line. -/
def headers : Line := "operation,key,jobid\n".toList

/-- `line.split(',', maxsplit=1)`, when it gives two strings. -/
def splitOnce (line : Line) : Option (Line × Line) :=
  if ',' ∈ line then
    some (line.takeWhile (· ≠ ','), (line.dropWhile (· ≠ ',')).tail)
  else none

/-- `filename.rsplit('.', 1)`, when it gives two strings. -/
def rsplitDot (filename : List Char) : Option (List Char × List Char) :=
  if '.' ∈ filename then
    some ((filename.reverse.dropWhile (· ≠ '.')).tail.reverse,
      (filename.reverse.takeWhile (· ≠ '.')).reverse)
  else none

/-- `%i` of a number that is not negative. -/
def decimal (index : Nat) : List Char := (Nat.repr index).toList

theorem decimal_inj {i j : Nat} (h : decimal i = decimal j) : i = j := by
  unfold decimal at h
  rw [Nat.toList_repr, Nat.toList_repr] at h
  have hvalue := congrArg (fun digits => Nat.ofDigitChars 10 digits 0) h
  simpa only [Nat.ofDigitChars_ten_toDigits] using hvalue

theorem notMem_decimal {c : Char} (hc : c.isDigit = false) (i : Nat) : c ∉ decimal i := by
  unfold decimal
  rw [Nat.toList_repr]
  intro hmem
  have hdigit := Nat.isDigit_of_mem_toDigits (by decide) (by decide) hmem
  rw [hc] at hdigit
  cases hdigit

/-- `partname`. -/
def partname (filename : List Char) (index : Nat) : List Char :=
  match rsplitDot filename with
  | none => filename ++ '-' :: decimal index
  | some (filename, suffix) => filename ++ '-' :: decimal index ++ '.' :: suffix

theorem rsplitDot_append (filename : List Char) {suffix : List Char}
    (hsuffix : '.' ∉ suffix) :
    rsplitDot (filename ++ '.' :: suffix) = some (filename, suffix) := by
  have hne : ∀ c ∈ suffix.reverse, decide (c ≠ '.') = true := by
    intro c hc
    apply decide_eq_true
    intro heq
    exact hsuffix (heq ▸ List.mem_reverse.mp hc)
  have hreverse : (filename ++ '.' :: suffix).reverse =
      suffix.reverse ++ '.' :: filename.reverse := by
    simp
  rw [rsplitDot, if_pos (by simp), hreverse, List.dropWhile_append_of_pos hne,
    List.takeWhile_append_of_pos hne]
  simp

/-- The extension is what follows the last dot. -/
theorem dot_notMem_of_rsplitDot {filename base suffix : List Char}
    (h : rsplitDot filename = some (base, suffix)) : '.' ∉ suffix := by
  unfold rsplitDot at h
  split at h
  · cases h
    rw [List.mem_reverse]
    intro hmem
    have hne := List.mem_takeWhile_imp hmem
    simp at hne
  · cases h

theorem dot_notMem_of_rsplitDot_none {filename : List Char}
    (h : rsplitDot filename = none) : '.' ∉ filename := by
  unfold rsplitDot at h
  split at h
  · cases h
  · assumption

/-- The name of a part of a part. -/
theorem partname_partname (filename : List Char) (i j : Nat) :
    partname (partname filename i) j =
      match rsplitDot filename with
      | none => filename ++ '-' :: (decimal i ++ '-' :: decimal j)
      | some (base, suffix) =>
          base ++ '-' :: (decimal i ++ '-' :: decimal j) ++ '.' :: suffix := by
  cases h : rsplitDot filename with
  | none =>
      have hname : partname filename i = filename ++ '-' :: decimal i := by
        rw [partname, h]
      have hdot : '.' ∉ filename ++ '-' :: decimal i := by
        simp [dot_notMem_of_rsplitDot_none h, notMem_decimal (c := '.') (by decide)]
      rw [hname, partname, rsplitDot, if_neg hdot]
      simp
  | some split =>
      obtain ⟨base, suffix⟩ := split
      have hname : partname filename i = base ++ '-' :: decimal i ++ '.' :: suffix := by
        rw [partname, h]
      rw [hname, partname, rsplitDot_append _ (dot_notMem_of_rsplitDot h)]
      simp

/-- The files of the clients have different names. -/
theorem partname_partname_inj (filename : List Char) {i i' j j' : Nat}
    (h : partname (partname filename i) j = partname (partname filename i') j') :
    i = i' ∧ j = j' := by
  have hnumbers : decimal i ++ '-' :: decimal j = decimal i' ++ '-' :: decimal j' := by
    rw [partname_partname, partname_partname] at h
    split at h
    · simpa using h
    · rw [List.append_left_inj, List.append_right_inj, List.cons.injEq] at h
      exact h.2
  have hdash := fun k => notMem_decimal (c := '-') (by decide) k
  obtain ⟨hi, _, hj⟩ := (List.append_cons_inj_of_notMem (hdash i) (hdash j)).mp hnumbers
  exact ⟨decimal_inj hi, decimal_inj hj⟩

variable {F : Type} [LinearOrder F] [Add F]

/-- `timestamp, line = line.split(',', maxsplit=1)` with the conversion; `none` for
a `ValueError`. -/
def splitTimestamp (float : Line → Option F) (line : Line) : Option (F × Line) :=
  match splitOnce line with
  | none => none
  | some (timestamp, line) => (float timestamp).map (·, line)

/-- Both loops of `_main`: `stream` is what has been written into the open part. -/
def splitLoop (float : Line → Option F) (step : F) (start : F) (stream : List Line) :
    List Line → Option (List (List Line))
  | [] => some [stream]
  | line :: source =>
      match splitTimestamp float line with
      | none => none
      | some (timestamp, line) =>
          if timestamp ≥ start + step then
            (splitLoop float step timestamp [headers, line] source).map (stream :: ·)
          else splitLoop float step start (stream ++ [line]) source

/-- `main`, for one file: the contents of the parts, by their index. -/
def splitMain (float : Line → Option F) (step : F) (file : List Line) :
    Option (List (List Line)) :=
  -- `stream.readline()`
  match file.tail with
  | [] => some []
  | line :: source =>
      match splitTimestamp float line with
      | none => none
      | some (start, line) => splitLoop float step start [headers, line] source

/-! ## Traces -/

/-- A line of a trace, with the value of its timestamp. -/
structure TraceLine (float : Line → Option F) where
  timestamp : Line
  operation : Line
  key : Line
  jobid : Line
  value : F
  float_eq : float timestamp = some value
  timestamp_noComma : ',' ∉ timestamp
  operation_noComma : ',' ∉ operation
  key_noComma : ',' ∉ key
  jobid_noComma : ',' ∉ jobid

variable {float : Line → Option F}

/-- The line without its timestamp. -/
def TraceLine.operationLine (line : TraceLine float) : Line :=
  line.operation ++ ',' :: (line.key ++ ',' :: line.jobid)

/-- The line as it stands in the trace. -/
def TraceLine.render (line : TraceLine float) : Line :=
  line.timestamp ++ ',' :: line.operationLine

/-- The file of a part. -/
def partFile (part : List (TraceLine float)) : List Line :=
  headers :: part.map TraceLine.operationLine

/-- The line comes less than a step after the first line of its part. -/
def within (step : F) (first line : TraceLine float) : Bool :=
  decide (line.value < first.value + step)

theorem splitOnce_append {field rest : Line} (hfield : ',' ∉ field) :
    splitOnce (field ++ ',' :: rest) = some (field, rest) := by
  have hne : ∀ c ∈ field, decide (c ≠ ',') = true := by
    intro c hc
    apply decide_eq_true
    intro heq
    exact hfield (heq ▸ hc)
  rw [splitOnce, if_pos (by simp), List.takeWhile_append_of_pos hne,
    List.dropWhile_append_of_pos hne]
  simp

omit [LinearOrder F] [Add F] in
theorem splitTimestamp_render (line : TraceLine float) :
    splitTimestamp float line.render = some (line.value, line.operationLine) := by
  unfold splitTimestamp TraceLine.render
  rw [splitOnce_append line.timestamp_noComma]
  simp only [line.float_eq, Option.map_some]

theorem splitLoop_render (step : F) (first : TraceLine float)
    (part source : List (TraceLine float)) :
    splitLoop float step first.value (partFile (first :: part))
        (source.map TraceLine.render) =
      some ((chunksFrom (within step) first part source).map partFile) := by
  induction source generalizing first part with
  | nil => rfl
  | cons line source ih =>
      rw [List.map_cons, splitLoop, splitTimestamp_render, chunksFrom]
      dsimp only
      by_cases hlater : line.value ≥ first.value + step
      · have hout : ¬ within step first line = true := by
          simpa [within] using hlater
        have hnext := ih line []
        rw [if_pos hlater, if_neg hout, List.map_cons]
        change Option.map _ (splitLoop float step line.value (partFile [line]) _) = _
        rw [hnext]
        rfl
      · have hin : within step first line = true := by
          simpa [within] using hlater
        rw [if_neg hlater, if_pos hin]
        have hnext := ih first (part ++ [line])
        have hfile : partFile (first :: part) ++ [line.operationLine] =
            partFile (first :: (part ++ [line])) := by
          simp [partFile]
        rw [hfile]
        exact hnext

/-- The parts are the runs of lines within a step of their first. -/
theorem splitMain_render (step : F) (header : Line) (trace : List (TraceLine float)) :
    splitMain float step (header :: trace.map TraceLine.render) =
      some ((chunks (within step) trace).map partFile) := by
  cases trace with
  | nil => rfl
  | cons line source =>
      rw [splitMain, List.tail_cons, List.map_cons]
      dsimp only
      rw [splitTimestamp_render]
      exact splitLoop_render step line [] source

end MeDiE.Trace
