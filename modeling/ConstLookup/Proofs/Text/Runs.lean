import Mathlib.Data.List.TakeWhile

/-!
  Runs of characters. Readers take the longest run at the start of a text whose characters satisfy
  a predicate, and go on behind it. A run is the longest one where the text ends behind it or goes
  on with a character that does not satisfy the predicate; this is the hypothesis on the head of
  the rest in the laws here (`takeWhile_run`, `dropWhile_run`), and it holds behind every run that
  a reader takes (`head_dropWhile`).
-/

namespace ConstLookup.Text

section Runs

variable {α : Type} {p : α → Bool} {run rest : List α}

theorem head_dropWhile (p : α → Bool) (cs : List α) :
    ∀ c ∈ (cs.dropWhile p).head?, p c = false := by
  have stops := List.head?_dropWhile_not p cs
  intro c hc
  rw [Option.mem_def.mp hc] at stops
  exact stops

theorem takeWhile_isEmpty {cs : List α} :
    (cs.takeWhile p).isEmpty = true ↔ ∀ c ∈ cs.head?, p c = false := by
  cases cs with
  | nil => simp
  | cons c cs => cases hc : p c <;> simp [hc]

theorem takeWhile_stop (stops : ∀ c ∈ rest.head?, p c = false) : rest.takeWhile p = [] :=
  List.isEmpty_iff.mp (takeWhile_isEmpty.mpr stops)

theorem dropWhile_stop (stops : ∀ c ∈ rest.head?, p c = false) : rest.dropWhile p = rest := by
  cases rest with
  | nil => rfl
  | cons c cs => rw [List.dropWhile_cons_of_neg (by simp [stops c rfl])]

theorem takeWhile_run (inside : ∀ c ∈ run, p c = true) (stops : ∀ c ∈ rest.head?, p c = false) :
    (run ++ rest).takeWhile p = run := by
  rw [List.takeWhile_append_of_pos inside, takeWhile_stop stops, List.append_nil]

theorem dropWhile_run (inside : ∀ c ∈ run, p c = true) (stops : ∀ c ∈ rest.head?, p c = false) :
    (run ++ rest).dropWhile p = rest := by
  rw [List.dropWhile_append_of_pos inside, dropWhile_stop stops]

/-- What a run does not go on with has no part in any run before it. -/
theorem takeWhile_append_stop (stops : ∀ c ∈ rest.head?, p c = false) (cs : List α) :
    (cs ++ rest).takeWhile p = cs.takeWhile p := by
  induction cs with
  | nil => exact takeWhile_stop stops
  | cons c cs ih => simp only [List.cons_append, List.takeWhile_cons, ih]

theorem dropWhile_append_stop (stops : ∀ c ∈ rest.head?, p c = false) (cs : List α) :
    (cs ++ rest).dropWhile p = cs.dropWhile p ++ rest := by
  induction cs with
  | nil => exact dropWhile_stop stops
  | cons c cs ih =>
    simp only [List.cons_append, List.dropWhile_cons, ih]
    split
    · rfl
    · rfl

end Runs

section Mark

variable {mark : Char} {run : List Char}

/-- The characters before the first mark are a run. -/
theorem takeWhile_ne (none : mark ∉ run) (rest : List Char) :
    (run ++ mark :: rest).takeWhile (· ≠ mark) = run := by
  refine takeWhile_run (fun c hc => decide_eq_true fun same => none (same ▸ hc)) ?_
  rintro _ ⟨⟩
  simp

theorem dropWhile_ne (none : mark ∉ run) (rest : List Char) :
    (run ++ mark :: rest).dropWhile (· ≠ mark) = mark :: rest := by
  refine dropWhile_run (fun c hc => decide_eq_true fun same => none (same ▸ hc)) ?_
  rintro _ ⟨⟩
  simp

end Mark

end ConstLookup.Text
