import Mathlib.Tactic

/-!
# Cutting a list into runs

A run goes on for as long as the elements fit the first one of the run; the first
element that does not fit starts the next run.  `List.splitBy` compares neighbours
instead, so it does not do.
-/

namespace MeDiE.Verified.Chunks

variable {α : Type}

/-- The runs of a list, where `first :: run` is the run that is open. -/
def chunksFrom (fits : α → α → Bool) (first : α) (run : List α) : List α → List (List α)
  | [] => [first :: run]
  | a :: l =>
      if fits first a = true then chunksFrom fits first (run ++ [a]) l
      else (first :: run) :: chunksFrom fits a [] l

/-- The runs of a list. -/
def chunks (fits : α → α → Bool) : List α → List (List α)
  | [] => []
  | a :: l => chunksFrom fits a [] l

/-- A run: its first element, which the others fit. -/
def IsRun (fits : α → α → Bool) (chunk : List α) : Prop :=
  ∃ first run, chunk = first :: run ∧ ∀ a ∈ run, fits first a = true

/-- The next run starts with an element that does not fit. -/
def StopsAt (fits : α → α → Bool) (chunk next : List α) : Prop :=
  ∀ first ∈ chunk.head?, ∀ a ∈ next.head?, fits first a = false

variable (fits : α → α → Bool)

theorem flatten_chunksFrom (first : α) (run l : List α) :
    (chunksFrom fits first run l).flatten = first :: run ++ l := by
  induction l generalizing first run with
  | nil => simp [chunksFrom]
  | cons a l ih =>
      rw [chunksFrom]
      split
      · rw [ih]
        simp
      · rw [List.flatten_cons, ih]
        simp

/-- Nothing is lost, and the order is kept. -/
theorem flatten_chunks (l : List α) : (chunks fits l).flatten = l := by
  cases l with
  | nil => rfl
  | cons a l => exact flatten_chunksFrom fits a [] l

theorem isRun_of_mem_chunksFrom (first : α) (run l : List α)
    (hrun : ∀ a ∈ run, fits first a = true) :
    ∀ chunk ∈ chunksFrom fits first run l, IsRun fits chunk := by
  induction l generalizing first run with
  | nil =>
      intro chunk hchunk
      rw [chunksFrom, List.mem_singleton] at hchunk
      exact ⟨first, run, hchunk, hrun⟩
  | cons a l ih =>
      intro chunk hchunk
      rw [chunksFrom] at hchunk
      split at hchunk
      · rename_i ha
        apply ih first (run ++ [a]) _ chunk hchunk
        intro b hb
        rcases List.mem_append.mp hb with hb | hb
        · exact hrun b hb
        · rw [List.mem_singleton.mp hb]
          exact ha
      · rcases List.mem_cons.mp hchunk with heq | hmem
        · exact ⟨first, run, heq, hrun⟩
        · apply ih a [] _ chunk hmem
          simp

theorem isRun_of_mem_chunks (l : List α) :
    ∀ chunk ∈ chunks fits l, IsRun fits chunk := by
  cases l with
  | nil => simp [chunks]
  | cons a l => exact isRun_of_mem_chunksFrom fits a [] l (by simp)

/-- The open run keeps its first element. -/
theorem head?_head?_chunksFrom (first : α) (run l : List α) :
    ∃ chunk, (chunksFrom fits first run l).head? = some chunk ∧
      chunk.head? = some first := by
  induction l generalizing run with
  | nil => exact ⟨first :: run, rfl, rfl⟩
  | cons a l ih =>
      rw [chunksFrom]
      split
      · exact ih _
      · exact ⟨first :: run, rfl, rfl⟩

theorem isChain_chunksFrom (first : α) (run l : List α) :
    (chunksFrom fits first run l).IsChain (StopsAt fits) := by
  induction l generalizing first run with
  | nil => exact List.isChain_singleton _
  | cons a l ih =>
      rw [chunksFrom]
      split
      · exact ih _ _
      · rename_i ha
        rw [List.isChain_cons]
        constructor
        · intro next hnext b hb c hc
          obtain ⟨chunk, hchunk, hhead⟩ := head?_head?_chunksFrom fits a [] l
          rw [hchunk, Option.mem_some_iff] at hnext
          subst hnext
          rw [hhead, Option.mem_some_iff] at hc
          rw [List.head?_cons, Option.mem_some_iff] at hb
          subst hb hc
          simpa using ha
        · exact ih a []

/-- Every run stops exactly where an element does not fit. -/
theorem isChain_chunks (l : List α) : (chunks fits l).IsChain (StopsAt fits) := by
  cases l with
  | nil => exact List.isChain_nil
  | cons a l => exact isChain_chunksFrom fits a [] l

end MeDiE.Verified.Chunks
