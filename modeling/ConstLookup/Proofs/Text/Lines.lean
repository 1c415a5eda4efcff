import ConstLookup.Proofs.Text.Runs
import ConstLookup.Text.Lines

/-!
  Texts and their lines. A text is cut after each line feed, and the cut is the only one: whenever
  pieces are lines (`IsLines`), the text that they make has these lines (`IsLines.lines_flatten`).
  What a search inside a line finds stands in the line.
-/

namespace ConstLookup.Text

/-! ## Ends of texts -/

section DropEnd

variable {p : Char → Bool}

/-- What is dropped at the end satisfies the predicate. -/
theorem exists_dropEndWhile (p : Char → Bool) (cs : List Char) :
    ∃ trail, cs = dropEndWhile p cs ++ trail ∧ ∀ c ∈ trail, p c = true := by
  refine ⟨(cs.reverse.takeWhile p).reverse, ?_,
    fun c hc => List.all_eq_true.mp List.all_takeWhile c (List.mem_reverse.mp hc)⟩
  rw [dropEndWhile, ← List.reverse_append, List.takeWhile_append_dropWhile, List.reverse_reverse]

theorem dropEndWhile_trail {trail : List Char} (h : ∀ c ∈ trail, p c = true) (cs : List Char) :
    dropEndWhile p (cs ++ trail) = dropEndWhile p cs := by
  rw [dropEndWhile, List.reverse_append,
    List.dropWhile_append_of_pos fun c hc => h c (List.mem_reverse.mp hc), dropEndWhile]

/-- What does not count as an end stays, with all that stands before it. -/
theorem dropEndWhile_append {c : Char} (h : p c = false) (front cs : List Char) :
    dropEndWhile p (front ++ c :: cs) = front ++ c :: dropEndWhile p cs := by
  rw [dropEndWhile, List.reverse_append, List.reverse_cons, List.append_assoc,
    List.dropWhile_append]
  split
  next ends =>
    rw [dropEndWhile, List.isEmpty_iff.mp ends]
    simp [h]
  next => simp [dropEndWhile]

theorem dropEndWhile_eq_self {cs : List Char} (h : ∀ c ∈ cs.getLast?, p c = false) :
    dropEndWhile p cs = cs := by
  rw [← List.head?_reverse] at h
  rw [dropEndWhile, dropWhile_stop h, List.reverse_reverse]

theorem dropEndWhile_map {f : Char → Char} (h : ∀ c, p (f c) = p c) (cs : List Char) :
    dropEndWhile p (cs.map f) = (dropEndWhile p cs).map f := by
  have same : p ∘ f = p := funext h
  rw [dropEndWhile, ← List.map_reverse, List.dropWhile_map, same, ← List.map_reverse, dropEndWhile]

/-- What trimming removes are blanks. -/
theorem exists_trim (cs : List Char) :
    ∃ lead trail, cs = lead ++ (trim cs ++ trail) ∧ (∀ c ∈ lead, isBlank c = true) ∧
      ∀ c ∈ trail, isBlank c = true := by
  obtain ⟨trail, ends, blank⟩ := exists_dropEndWhile isBlank (cs.dropWhile isBlank)
  refine ⟨cs.takeWhile isBlank, trail, ?_, List.all_eq_true.mp List.all_takeWhile, blank⟩
  rw [trim, ← ends, List.takeWhile_append_dropWhile]

theorem mem_trim {c : Char} {cs : List Char} (h : c ∈ cs) (solid : isBlank c = false) :
    c ∈ trim cs := by
  obtain ⟨lead, trail, text, hl, ht⟩ := exists_trim cs
  rw [text, List.mem_append, List.mem_append] at h
  rcases h with mem | mem | mem
  · exact absurd (hl c mem) (by simp [solid])
  · exact mem
  · exact absurd (ht c mem) (by simp [solid])

end DropEnd

/-! ## Lines -/

theorem linesFrom_append {line : List Char} (h : '\n' ∉ line) (begun rest : List Char) :
    linesFrom begun (line ++ '\n' :: rest) = (begun.reverse ++ (line ++ ['\n'])) :: lines rest := by
  induction line generalizing begun with
  | nil => simp [linesFrom, lines]
  | cons c line ih =>
    simp only [List.mem_cons, not_or] at h
    rw [List.cons_append, linesFrom, if_neg (Ne.symm h.1), ih h.2]
    simp

theorem linesFrom_line {line : List Char} (h : '\n' ∉ line) (begun : List Char) :
    linesFrom begun line = linesFrom (line.reverse ++ begun) [] := by
  induction line generalizing begun with
  | nil => rfl
  | cons c line ih =>
    simp only [List.mem_cons, not_or] at h
    have step : linesFrom begun (c :: line) = linesFrom (c :: begun) line := by
      rw [linesFrom, if_neg (Ne.symm h.1)]
    rw [step, ih h.2, List.reverse_cons, List.append_assoc, List.singleton_append]

/-- A text is made of whole lines and the begin of one more. -/
theorem exists_linesFrom_append {begun : List Char} (h : '\n' ∉ begun) (front : List Char) :
    ∃ (whole : List (List Char)) (last : List Char), '\n' ∉ last ∧ ∀ rest,
      linesFrom begun (front ++ rest) = whole ++ linesFrom last.reverse rest := by
  induction front generalizing begun with
  | nil => exact ⟨[], begun.reverse, by simpa using h, fun rest => by simp⟩
  | cons c front ih =>
    by_cases feed : c = '\n'
    · obtain ⟨whole, last, line, same⟩ := ih (List.not_mem_nil (a := '\n'))
      refine ⟨(c :: begun).reverse :: whole, last, line, fun rest => ?_⟩
      rw [List.cons_append, linesFrom, if_pos feed, same rest, List.cons_append]
    · have line : '\n' ∉ c :: begun := by simp [Ne.symm feed, h]
      obtain ⟨whole, last, line, same⟩ := ih line
      refine ⟨whole, last, line, fun rest => ?_⟩
      rw [List.cons_append, linesFrom, if_neg feed, same rest]

/-- Each piece ends with its only line feed, which the last one may lack. -/
inductive IsLines : List (List Char) → Prop where
  | nil : IsLines []
  | last {body : List Char} (line : '\n' ∉ body) (nonempty : body ≠ []) : IsLines [body]
  | cons {body : List Char} {rest : List (List Char)} (line : '\n' ∉ body) (more : IsLines rest) :
      IsLines ((body ++ ['\n']) :: rest)

theorem isLines_linesFrom {begun : List Char} (h : '\n' ∉ begun) (cs : List Char) :
    IsLines (linesFrom begun cs) := by
  induction cs generalizing begun with
  | nil =>
    rw [linesFrom]
    split
    next => exact .nil
    next nonempty => exact .last (by simpa using h) (by simpa using nonempty)
  | cons c cs ih =>
    rw [linesFrom]
    split
    next feed =>
      rw [feed, List.reverse_cons]
      exact .cons (by simpa using h) (ih List.not_mem_nil)
    next other => exact ih (by simp [Ne.symm other, h])

theorem isLines_lines (cs : List Char) : IsLines (lines cs) := isLines_linesFrom List.not_mem_nil cs

/-- Lines joined together are the lines of the text that they make. -/
theorem IsLines.lines_flatten {ls : List (List Char)} (h : IsLines ls) : lines ls.flatten = ls := by
  induction h with
  | nil => rfl
  | last line nonempty =>
    rw [List.flatten_singleton, lines, linesFrom_line line, linesFrom]
    simp [nonempty]
  | cons line more ih =>
    rw [List.flatten_cons, List.append_assoc, List.singleton_append, lines, linesFrom_append line,
      ih]
    rfl

/-! ## Searches -/

theorem after?_eq_some_iff {start cs rest : List Char} :
    after? start cs = some rest ↔ cs = start ++ rest := by
  constructor
  · intro h
    rw [after?] at h
    split at h
    next starts =>
      obtain ⟨more, rfl⟩ := List.isPrefixOf_iff_prefix.mp starts
      rw [List.drop_left, Option.some.injEq] at h
      rw [h]
    next => cases h
  · rintro rfl
    rw [after?, if_pos (List.isPrefixOf_iff_prefix.mpr (List.prefix_append _ _)), List.drop_left]

/-- A whole word ends where no word character follows. -/
theorem afterWord?_eq_some_iff {word : String} {cs rest : List Char} :
    afterWord? word cs = some rest ↔
      cs = word.toList ++ rest ∧ ∀ c ∈ rest.head?, isWord c = false := by
  rw [← after?_eq_some_iff, afterWord?]
  cases after? word.toList cs with
  | none => simp
  | some more =>
    cases more with
    | nil =>
      refine ⟨fun same => ⟨same, ?_⟩, And.left⟩
      obtain rfl := Option.some.inj same
      nofun
    | cons c more =>
      show (if isWord c = true then none else some (c :: more)) = some rest ↔ _
      constructor
      · intro same
        split at same
        · cases same
        · next ends =>
          obtain rfl := Option.some.inj same
          exact ⟨rfl, by simpa using ends⟩
      · rintro ⟨same, stops⟩
        obtain rfl := Option.some.inj same
        exact if_neg (by simp [stops c rfl])

/-- A text that begins with a whole word begins with no other. -/
theorem afterWord?_word {w word : String} (hw : ∀ c ∈ w.toList, isWord c = true)
    (hword : ∀ c ∈ word.toList, isWord c = true) {argument : List Char}
    (apart : ∀ c ∈ argument.head?, isWord c = false) :
    afterWord? w (word.toList ++ argument) = if w = word then some argument else none := by
  split
  · next same =>
    subst same
    exact afterWord?_eq_some_iff.mpr ⟨rfl, apart⟩
  · next other =>
    refine Option.eq_none_iff_forall_ne_some.mpr fun rest found => other ?_
    obtain ⟨text, stops⟩ := afterWord?_eq_some_iff.mp found
    have same := congrArg (List.takeWhile isWord) text
    rw [takeWhile_run hword apart, takeWhile_run hw stops] at same
    exact (String.toList_inj.mp same).symm

theorem infix_of_containsWord {word : String} {inWord : Bool} {cs : List Char}
    (h : containsWord word inWord cs = true) : word.toList <:+: cs := by
  induction cs generalizing inWord with
  | nil => cases h
  | cons c cs ih =>
    rw [containsWord, Bool.or_eq_true, Bool.and_eq_true] at h
    rcases h with ⟨-, here⟩ | later
    · obtain ⟨rest, found⟩ := Option.isSome_iff_exists.mp here
      exact ⟨[], rest, (afterWord?_eq_some_iff.mp found).1.symm⟩
    · exact (ih later).trans (List.suffix_cons c cs).isInfix

theorem containsText_iff {part cs : List Char} : containsText part cs = true ↔ part <:+: cs := by
  induction cs with
  | nil => rw [containsText, List.isEmpty_iff, List.infix_nil]
  | cons c cs ih =>
    rw [containsText, Bool.or_eq_true, List.isPrefixOf_iff_prefix, ih, List.infix_cons_iff]

end ConstLookup.Text
