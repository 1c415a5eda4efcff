import ConstLookup.Proofs.Text.Lines

/-!
  Blanks around a text and between its words. What trimming leaves has no blank at either end
  (`trimmed_trim`), and it is the only such text with nothing but blanks around it
  (`trim_spaced`). The words of a text follow from one equation: a blank ends a word
  (`words_append_blank`).
-/

namespace ConstLookup.Text

/-! ## Trimming -/

/-- No blank stands at either end. -/
structure Trimmed (cs : List Char) : Prop where
  lead : ∀ c ∈ cs.head?, isBlank c = false
  trail : ∀ c ∈ cs.getLast?, isBlank c = false

theorem trimmed_of_solid {cs : List Char} (h : ∀ c ∈ cs, isBlank c = false) : Trimmed cs :=
  ⟨fun c hc => h c (List.mem_of_mem_head? hc), fun c hc => h c (List.mem_of_mem_getLast? hc)⟩

theorem trimmed_trim (cs : List Char) : Trimmed (trim cs) where
  lead c hc := by
    obtain ⟨rest, trailing, -⟩ := exists_dropEndWhile isBlank (cs.dropWhile isBlank)
    have first : (cs.dropWhile isBlank).head? = some c := by
      rw [trailing, List.head?_append, ← trim, hc]
      rfl
    exact head_dropWhile isBlank cs c first
  trail c hc := by
    rw [trim, dropEndWhile, List.getLast?_reverse] at hc
    exact head_dropWhile isBlank _ c hc

/-- Blanks around a text are trimmed, and nothing else. -/
theorem trim_spaced {lead name trail : List Char} (hl : ∀ c ∈ lead, isBlank c = true)
    (ht : ∀ c ∈ trail, isBlank c = true) (h : Trimmed name) :
    trim (lead ++ name ++ trail) = name := by
  rw [trim, List.append_assoc, List.dropWhile_append_of_pos hl]
  cases name with
  | nil =>
    have none : (trail ++ []).dropWhile isBlank = [] := List.dropWhile_append_of_pos ht
    rw [List.nil_append, ← List.append_nil trail, none]
    rfl
  | cons c cs =>
    have lead : ∀ d ∈ (c :: cs ++ trail).head?, isBlank d = false := h.lead
    rw [dropWhile_stop lead, dropEndWhile_trail ht, dropEndWhile_eq_self h.trail]

theorem Trimmed.trim_eq {cs : List Char} (h : Trimmed cs) : trim cs = cs := by
  have spaced := trim_spaced (List.forall_mem_nil _) (List.forall_mem_nil _) h
  rwa [List.nil_append, List.append_nil] at spaced

/-! ## Words -/

/-- The open run and what follows it are cut at the first blank. -/
theorem wordsFrom_append_blank {c : Char} (h : isBlank c = true) (run front back : List Char) :
    wordsFrom run (front ++ c :: back) = wordsFrom run front ++ words back := by
  induction front generalizing run with
  | nil =>
    rw [List.nil_append, wordsFrom.eq_2, wordsFrom.eq_1, if_pos h]
    cases run with
    | nil => rfl
    | cons d run => rfl
  | cons d front ih =>
    rw [List.cons_append, wordsFrom, wordsFrom, ih, ih]
    split
    · cases run with
      | nil => rfl
      | cons e run => rfl
    · rfl

/-- A blank ends a word. -/
theorem words_append_blank {c : Char} (h : isBlank c = true) (front back : List Char) :
    words (front ++ c :: back) = words front ++ words back := wordsFrom_append_blank h [] front back

theorem words_cons_blank {c : Char} (h : isBlank c = true) (cs : List Char) :
    words (c :: cs) = words cs := words_append_blank h [] cs

theorem words_blanks {blanks : List Char} (h : ∀ c ∈ blanks, isBlank c = true) (cs : List Char) :
    words (blanks ++ cs) = words cs := by
  induction blanks with
  | nil => rfl
  | cons c blanks ih =>
    obtain ⟨first, others⟩ := List.forall_mem_cons.mp h
    rw [List.cons_append, words_cons_blank first, ih others]

theorem wordsFrom_solid {cs : List Char} (h : ∀ c ∈ cs, isBlank c = false) (run : List Char) :
    wordsFrom run cs = if run.reverse ++ cs = [] then [] else [run.reverse ++ cs] := by
  induction cs generalizing run with
  | nil => cases run <;> simp [wordsFrom]
  | cons c cs ih =>
    obtain ⟨first, others⟩ := List.forall_mem_cons.mp h
    rw [wordsFrom, if_neg (by simp [first]), ih others]
    simp

/-- A text without blanks is one word. -/
theorem words_solid {cs : List Char} (h : ∀ c ∈ cs, isBlank c = false) (nonempty : cs ≠ []) :
    words cs = [cs] := by
  rw [words, wordsFrom_solid h]
  simp [nonempty]

theorem solid_of_mem_wordsFrom {run cs : List Char} (h : ∀ c ∈ run, isBlank c = false)
    {word : List Char} (hw : word ∈ wordsFrom run cs) : ∀ c ∈ word, isBlank c = false := by
  induction cs generalizing run with
  | nil =>
    rw [wordsFrom] at hw
    split at hw
    · cases hw
    · obtain rfl := List.mem_singleton.mp hw
      exact fun c hc => h c (List.mem_reverse.mp hc)
  | cons c cs ih =>
    rw [wordsFrom] at hw
    split at hw
    · split at hw
      · exact ih (List.forall_mem_nil _) hw
      · rcases List.mem_cons.mp hw with rfl | later
        · exact fun c hc => h c (List.mem_reverse.mp hc)
        · exact ih (List.forall_mem_nil _) later
    · next solid => exact ih (List.forall_mem_cons.mpr ⟨by simpa using solid, h⟩) hw

/-- No blank stands in a word. -/
theorem solid_of_mem_words {cs word : List Char} (h : word ∈ words cs) :
    ∀ c ∈ word, isBlank c = false := solid_of_mem_wordsFrom (List.forall_mem_nil _) h

end ConstLookup.Text
