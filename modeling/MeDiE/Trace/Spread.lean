import MeDiE.Trace.Split

/-!
# `spread.py`

The script deals the lines of a part out to the clients.  A key is assigned, when
it is seen for the first time, to the client with the fewest lines so far, and
keeps its client.  The `jobid` is dropped.

With `split.py` before it, every operation of a trace ends up in exactly one file,
and the operations of a key in a part are in one file, in their order.
-/

namespace MeDiE.Trace

open MeDiE.Verified.Chunks

/-- `files`, `key2file` and `streams`; the files of the clients are numbered. -/
structure Spreading (count : Nat) where
  files : Fin count → Nat
  key2file : Line → Option (Fin count)
  streams : Fin count → List Line

variable {count : Nat}

/-- `min(files, key=lambda x: files[x])`: the first of the files with fewest lines. -/
def leastFile (files : Fin count → Nat) : Option (Fin count) :=
  (List.finRange count).argmin files

/-- `','.join((operation, key))`, with the end of the line that `print` adds. -/
def clientLine (operation key : Line) : Line := operation ++ ',' :: key ++ ['\n']

/-- `key2file[key]` is `file`, and the line is printed to it and counted. -/
def Spreading.printLine (st : Spreading count) (file : Fin count) (operation key : Line) :
    Spreading count where
  files := Function.update st.files file (st.files file + 1)
  key2file := Function.update st.key2file key (some file)
  streams := Function.update st.streams file
    (st.streams file ++ [clientLine operation key])

/-- One round of the loop of `_main`; `none` for a `ValueError`. -/
def spreadLine (st : Spreading count) (line : Line) : Option (Spreading count) :=
  match line.splitOn ',' with
  | [operation, key, _] =>
      ((st.key2file key).or (leastFile st.files)).map
        fun file => st.printLine file operation key
  | _ => none

/-- `main`, for one file: the contents of the files of the clients. -/
def spreadMain (count : Nat) (file : List Line) : Option (Fin count → List Line) :=
  -- `stream.readline()`
  (file.tail.foldlM spreadLine
    { files := fun _ => 0
      key2file := fun _ => none
      streams := fun _ => [] }).map Spreading.streams

/-! ## One part -/

variable {F : Type} {float : Line → Option F}

/-- The file of a client: the lines of the part whose key has been given to it. -/
def clientFile (part : List (TraceLine float)) (fileOf : Line → Option (Fin count))
    (client : Fin count) : List Line :=
  (part.filter (fun line => fileOf line.key = some client)).map
    (fun line => clientLine line.operation line.key)

/-- Every line seen so far is in the file of its key. -/
structure SpreadInv (part : List (TraceLine float)) (st : Spreading count) : Prop where
  assigned : ∀ line ∈ part, st.key2file line.key ≠ none
  streams : ∀ client, st.streams client = clientFile part st.key2file client

theorem splitOn_operationLine (line : TraceLine float) :
    line.operationLine.splitOn ',' = [line.operation, line.key, line.jobid] := by
  unfold TraceLine.operationLine
  rw [List.splitOn_append_cons_self, List.splitOn_append_cons_self,
    List.splitOn_eq_singleton line.operation_noComma,
    List.splitOn_eq_singleton line.key_noComma,
    List.splitOn_eq_singleton line.jobid_noComma]
  rfl

theorem exists_leastFile (hcount : 0 < count) (files : Fin count → Nat) :
    ∃ file, leastFile files = some file := by
  rw [← Option.isSome_iff_exists, Option.isSome_iff_ne_none]
  intro hnone
  rw [leastFile, List.argmin_eq_none] at hnone
  have hmem := List.mem_finRange (⟨0, hcount⟩ : Fin count)
  rw [hnone] at hmem
  cases hmem

/-- A line goes to the file of its key; the other files and the lines before it
stay where they are. -/
theorem SpreadInv.spreadLine (hcount : 0 < count) {part : List (TraceLine float)}
    {st : Spreading count} (inv : SpreadInv part st) (line : TraceLine float) :
    ∃ st', spreadLine st line.operationLine = some st' ∧ SpreadInv (part ++ [line]) st' := by
  obtain ⟨file, hfile⟩ : ∃ file,
      (st.key2file line.key).or (leastFile st.files) = some file := by
    cases hkey : st.key2file line.key with
    | some file => exact ⟨file, rfl⟩
    | none => exact exists_leastFile hcount st.files
  -- a key that has a file keeps it
  have hkeep : ∀ l ∈ part,
      Function.update st.key2file line.key (some file) l.key = st.key2file l.key := by
    intro l hl
    by_cases heq : l.key = line.key
    · have hassigned := inv.assigned l hl
      rw [heq] at hassigned ⊢
      rw [Function.update_self]
      cases hkey : st.key2file line.key with
      | none => exact absurd hkey hassigned
      | some file' =>
          rw [hkey] at hfile
          exact hfile.symm
    · exact Function.update_of_ne heq _ _
  refine ⟨st.printLine file line.operation line.key, ?_, ?_⟩
  · unfold Trace.spreadLine
    rw [splitOn_operationLine]
    simp only [hfile, Option.map_some]
  · constructor
    · intro l hl
      rcases List.mem_append.mp hl with hl | hl
      · show Function.update st.key2file line.key (some file) l.key ≠ none
        rw [hkeep l hl]
        exact inv.assigned l hl
      · rw [List.mem_singleton.mp hl]
        simp [Spreading.printLine]
    · intro client
      have hold : clientFile part (Function.update st.key2file line.key (some file)) client =
          st.streams client := by
        rw [inv.streams client]
        unfold clientFile
        congr 1
        apply List.filter_congr
        intro l hl
        rw [hkeep l hl]
      have hsplit : clientFile (part ++ [line])
            (Function.update st.key2file line.key (some file)) client =
          st.streams client ++
            if file = client then [clientLine line.operation line.key] else [] := by
        rw [← hold]
        unfold clientFile
        rw [List.filter_append, List.map_append]
        by_cases hclient : file = client <;> simp [hclient]
      show Function.update st.streams file _ client =
        clientFile _ (Function.update st.key2file line.key (some file)) client
      rw [hsplit]
      by_cases hclient : client = file
      · subst hclient
        simp
      · rw [Function.update_of_ne hclient, if_neg (Ne.symm hclient), List.append_nil]

/-- The whole loop. -/
theorem SpreadInv.foldlM (hcount : 0 < count) {part : List (TraceLine float)}
    {st : Spreading count} (inv : SpreadInv part st) (rest : List (TraceLine float)) :
    ∃ st', (rest.map TraceLine.operationLine).foldlM Trace.spreadLine st = some st' ∧
      SpreadInv (part ++ rest) st' := by
  induction rest generalizing part st with
  | nil =>
      rw [List.append_nil]
      exact ⟨st, rfl, inv⟩
  | cons line rest ih =>
      obtain ⟨st', hst', inv'⟩ := inv.spreadLine hcount line
      obtain ⟨st'', hst'', inv''⟩ := ih inv'
      refine ⟨st'', ?_, ?_⟩
      · rw [List.map_cons, List.foldlM_cons, hst']
        exact hst''
      · rwa [List.append_assoc] at inv''

/-- The lines of a part are dealt out by key, in their order. -/
theorem spreadMain_partFile (hcount : 0 < count) (part : List (TraceLine float)) :
    ∃ fileOf : Line → Option (Fin count),
      (∀ line ∈ part, fileOf line.key ≠ none) ∧
        spreadMain count (partFile part) = some (clientFile part fileOf) := by
  have hstart : SpreadInv ([] : List (TraceLine float))
      { files := fun _ => 0
        key2file := fun _ => none
        streams := fun _ : Fin count => [] } :=
    { assigned := fun line hline => absurd hline List.not_mem_nil
      streams := fun _ => rfl }
  obtain ⟨st, hst, inv⟩ := hstart.foldlM hcount part
  refine ⟨st.key2file, inv.assigned, ?_⟩
  rw [spreadMain, partFile, List.tail_cons, hst, Option.map_some]
  exact congrArg some (funext inv.streams)

/-! ## Both scripts -/

variable [LinearOrder F] [Add F]

/-- Every line of a part comes less than a step after the first line. -/
def WithinStep (step : F) (part : List (TraceLine float)) : Prop :=
  ∀ first ∈ part.head?, ∀ line ∈ part, line.value < first.value + step

/-- Let the timestamps be of a linear order with an addition, and let there be a client.
Both scripts run through.  The parts hold the lines of the trace in their order.  Within a
part every line goes to the file of one client, the one of its key, in its order.  The
lines after the first of a part come less than a step after it, the next part starts with
the first line that does not, and if the step is positive this holds of all lines. -/
theorem split_spread (step : F) {count : Nat} (hcount : 0 < count) (header : Line)
    (trace : List (TraceLine float)) :
    ∃ parts : List (List (TraceLine float)),
      splitMain float step (header :: trace.map TraceLine.render) =
        some (parts.map partFile) ∧
      parts.flatten = trace ∧
      (∀ part ∈ parts, ∃ fileOf : Line → Option (Fin count),
        (∀ line ∈ part, fileOf line.key ≠ none) ∧
          spreadMain count (partFile part) = some (clientFile part fileOf)) ∧
      (∀ part ∈ parts, ∃ first rest, part = first :: rest ∧
        (∀ line ∈ rest, line.value < first.value + step) ∧
        (first.value < first.value + step → WithinStep step part)) ∧
      parts.IsChain (fun part next => ∀ first ∈ part.head?, ∀ line ∈ next.head?,
        first.value + step ≤ line.value) := by
  refine ⟨chunks (within step) trace, splitMain_render step header trace,
    flatten_chunks _ trace, fun part _ => spreadMain_partFile hcount part, ?_, ?_⟩
  · intro part hpart
    obtain ⟨first, rest, heq, hrest⟩ := isRun_of_mem_chunks _ trace part hpart
    have hwithin : ∀ line ∈ rest, line.value < first.value + step :=
      fun line hline => of_decide_eq_true (hrest line hline)
    refine ⟨first, rest, heq, hwithin, ?_⟩
    intro hpos first' hfirst' line hline
    rw [heq, List.head?_cons, Option.mem_some_iff] at hfirst'
    subst hfirst'
    rw [heq] at hline
    rcases List.mem_cons.mp hline with hline | hline
    · rw [hline]
      exact hpos
    · exact hwithin line hline
  · apply (isChain_chunks (within step) trace).imp
    intro part next hstops first hfirst line hline
    have hout := of_decide_eq_false (hstops first hfirst line hline)
    exact not_lt.mp hout

/-- The timestamps of the sample trace. -/
def sampleFloat (timestamp : Line) : Option Int :=
  if timestamp = ['0'] then some 0 else if timestamp = ['7'] then some 7 else none

/-- A line of the sample trace, for the key `k`. -/
def sampleLine (timestamp : Line) (value : Int) (h : sampleFloat timestamp = some value)
    (hcomma : ',' ∉ timestamp) : TraceLine sampleFloat where
  timestamp := timestamp
  operation := "create".toList
  key := ['k']
  jobid := "j\n".toList
  value := value
  float_eq := h
  timestamp_noComma := hcomma
  operation_noComma := by decide
  key_noComma := by decide
  jobid_noComma := by decide

/-- Two lines, the second of which opens a second part. -/
def sampleTrace : List (TraceLine sampleFloat) :=
  [sampleLine ['0'] 0 rfl (by decide), sampleLine ['7'] 7 rfl (by decide)]

theorem split_spread_two_parts :
    ∃ parts : List (List (TraceLine sampleFloat)),
      splitMain sampleFloat 5 (headers :: sampleTrace.map TraceLine.render) =
        some (parts.map partFile) ∧
      parts.flatten = sampleTrace := by
  obtain ⟨parts, hsplit, hflatten, _⟩ :=
    split_spread (5 : Int) (show 0 < 2 by decide) headers sampleTrace
  exact ⟨parts, hsplit, hflatten⟩

/-- With step 0 the first line of a part is not below its own timestamp. -/
theorem exists_part_not_withinStep :
    splitMain sampleFloat 0
        (headers :: [sampleLine ['0'] 0 rfl (by decide)].map TraceLine.render) =
      some ([[sampleLine ['0'] 0 rfl (by decide)]].map partFile) ∧
    ¬ WithinStep (0 : Int) [sampleLine ['0'] 0 rfl (by decide)] := by
  constructor
  · exact splitMain_render (0 : Int) headers [sampleLine ['0'] 0 rfl (by decide)]
  · intro h
    have hlt := h _ rfl _ (List.mem_singleton_self _)
    simp [sampleLine] at hlt

end MeDiE.Trace
