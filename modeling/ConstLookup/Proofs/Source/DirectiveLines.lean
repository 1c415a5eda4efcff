import ConstLookup.Proofs.Source.LineEnd
import ConstLookup.Proofs.Source.Lines

/-!
  Texts of lines that hold a directive each, with blanks before the sign and after it. No linkage
  brace stands in such a text, and every line gives one token (`tokensOf_directives`). What is read
  of the lines is taken to be a function of the texts of their tokens, so that each kind of line
  says what it stands for.
-/

namespace ConstLookup.Source

open ConstLookup.Text ConstLookup.Source.Lexer

/-! ## Signs -/

/-- The sign of a directive with the blanks around it. -/
structure Sign where
  before : List Char
  after : List Char
  before_blank : ∀ c ∈ before, isLineBlank c = true
  after_blank : ∀ c ∈ after, isLineBlank c = true

/-- The text of a sign with the blanks around it. -/
def Sign.text (s : Sign) : List Char := s.before ++ '#' :: s.after

theorem isGap_of_isLineBlank {c : Char} (h : isLineBlank c = true) : isGap c = true := by
  simp only [isLineBlank, Bool.or_eq_true, decide_eq_true_eq] at h
  rcases h with rfl | rfl <;> decide

theorem isSpace_of_isLineBlank {c : Char} (h : isLineBlank c = true) : isSpace c = true :=
  (isGap_iff.mp (isGap_of_isLineBlank h)).1

theorem Sign.not_special (s : Sign) : ∀ c ∈ s.text, c ∉ special := by
  intro c hc
  simp only [Sign.text, List.mem_append, List.mem_cons] at hc
  rcases hc with mem | rfl | mem
  · exact not_special_of_isGap (isGap_of_isLineBlank (s.before_blank c mem))
  · decide
  · exact not_special_of_isGap (isGap_of_isLineBlank (s.after_blank c mem))

/-! ## One line -/

/-- The text holds nothing, like blanks and comments: what is read next is the sign behind it. -/
structure IsIdle (text : List Char) : Prop where
  done : afterGap text = []
  sign {lead : List Char} (blank : ∀ c ∈ lead, isSpace c = true) (more : List Char) :
    afterGap (text ++ (lead ++ '#' :: more)) = '#' :: more

theorem isIdle_of_space {text : List Char} (h : ∀ c ∈ text, isSpace c = true) : IsIdle text where
  done := afterGap_end h
  sign blank more := by
    rw [← List.append_assoc]
    exact afterGap_sign (List.forall_mem_append.mpr ⟨h, blank⟩) more

/-- The line is read as one directive with the given text; nothing is left of it but what is
idle. -/
def OneDirective (line : List Char) (d : Directive) (text : List Char) : Prop :=
  ∃ lead rest used left, line = lead ++ '#' :: rest ∧ rest ++ ['\n'] = used ++ left ∧
    text = '#' :: used ∧ (∀ c ∈ lead, isSpace c = true) ∧ IsIdle left ∧
      ∀ next, ∃ sound, Lexer.hash (used ++ (left ++ next)) = (.directive d, left ++ next, sound)

/-- The directive may depend on how its sign and its word are written. -/
theorem OneDirective.of_spelling (s : Sign) {word : String} {front left argument : List Char}
    {d : Directive} (hw : DirectiveWord word) (rest : argument ++ ['\n'] = front ++ left)
    (idle : IsIdle left) (apart : ∀ c ∈ (argument ++ ['\n']).head?, isWord c = false)
    (reads : ∀ next, ∃ sound,
      directive word (String.ofList ('#' :: (s.after ++ word.toList))) (front ++ (left ++ next)) =
        (d, left ++ next, sound)) :
    OneDirective (s.text ++ (word.toList ++ argument)) d
      ('#' :: (s.after ++ (word.toList ++ front))) := by
  refine ⟨s.before, s.after ++ (word.toList ++ argument), s.after ++ (word.toList ++ front), left,
    by simp [Sign.text], by simp [← rest], rfl,
    fun c hc => isSpace_of_isLineBlank (s.before_blank c hc), idle, fun next => ?_⟩
  have head : ∀ c ∈ (front ++ (left ++ next)).head?, isWord c = false := by
    rw [← List.append_assoc, ← rest]
    cases argument with
    | nil =>
      rintro _ ⟨⟩
      decide
    | cons c argument => exact apart
  obtain ⟨sound, reads⟩ := reads next
  have read := hash_spaced s.after_blank hw head
  rw [reads] at read
  exact ⟨sound, by simpa using read⟩

theorem OneDirective.of_word (s : Sign) {word : String} {front left argument : List Char}
    {d : Directive} (hw : DirectiveWord word) (rest : argument ++ ['\n'] = front ++ left)
    (hl : ∀ c ∈ left, isSpace c = true) (apart : ∀ c ∈ (argument ++ ['\n']).head?, isWord c = false)
    (reads : ∀ spelling next, ∃ sound,
      directive word spelling (front ++ (left ++ next)) = (d, left ++ next, sound)) :
    OneDirective (s.text ++ (word.toList ++ argument)) d
      ('#' :: (s.after ++ (word.toList ++ front))) :=
  .of_spelling s hw rest (isIdle_of_space hl) apart (reads _)

/-! ## All lines -/

section Rows

variable {β : Type} {f : List Char → β} {rows : List (Directive × β)} {ls : List (List Char)}

/-- Every line gives one token; what a directive leaves of its line is skipped before the next. -/
theorem tokensFrom_directives
    (h : List.Forall₂ (fun row l => ∃ text, OneDirective l row.1 text ∧ f text = row.2) rows ls)
    {left : List Char} (idle : IsIdle left) (p : Position) {steps : Nat}
    (enough : ls.length < steps) :
    (tokensFrom steps p (left ++ joinedLines ls)).map (fun t => (t.kind, f t.text)) =
      rows.map fun row => (.directive row.1, row.2) := by
  induction h generalizing left p steps with
  | nil =>
    obtain ⟨steps, rfl⟩ := Nat.exists_eq_add_of_lt enough
    have done : afterGap (left ++ joinedLines []) = [] := by
      rw [joinedLines, List.flatMap_nil, List.append_nil, idle.done]
    rw [tokensFrom, done]
    rfl
  | @cons row l rows ls reads _ ih =>
    obtain ⟨steps, rfl⟩ := Nat.exists_eq_add_of_lt enough
    obtain ⟨_, ⟨lead, rest, used, left', sign, line, rfl, blank, idle', reads⟩, shown⟩ := reads
    obtain ⟨sound, reads⟩ := reads (joinedLines ls)
    have whole : left ++ joinedLines (l :: ls) =
        left ++ (lead ++ '#' :: (used ++ (left' ++ joinedLines ls))) := by
      rw [joinedLines, List.flatMap_cons, sign, List.append_assoc lead, List.cons_append, line]
      simp [joinedLines]
    have own : consumed ('#' :: (used ++ (left' ++ joinedLines ls))) (left' ++ joinedLines ls) =
        '#' :: used := by
      rw [← List.cons_append, consumed_append]
    rw [whole, tokensFrom, idle.sign blank]
    dsimp only
    rw [if_pos rfl, reads]
    dsimp only
    rw [own, List.map_cons, List.map_cons, shown, ih idle']
    simp only [List.length_cons] at enough ⊢
    omega

/-- A source whose lines are read as directives is split into these, one for each line. -/
theorem tokensOf_directives
    (h : List.Forall₂ (fun row l => ∃ text, OneDirective l row.1 text ∧ f text = row.2) rows ls)
    (line : ∀ l ∈ ls, '\n' ∉ l) :
    (tokensOf (String.ofList (joinedLines ls))).map (fun t => (t.kind, f t.text)) =
      rows.map fun row => (.directive row.1, row.2) := by
  have signs : ∀ l ∈ ls, ∃ lead rest, l = lead ++ '#' :: rest ∧ ∀ c ∈ lead, isSpace c = true := by
    clear line
    induction h with
    | nil => exact List.forall_mem_nil _
    | cons reads _ ih =>
      obtain ⟨_, ⟨lead, rest, -, -, line, -, -, blank, -⟩, -⟩ := reads
      exact List.forall_mem_cons.mpr ⟨⟨lead, rest, line, blank⟩, ih⟩
  have plain : tokens (joinedLines ls) =
      tokensFrom ((joinedLines ls).length + 1) {} (joinedLines ls) := by
    unfold tokens
    split
    next cs mark =>
      cases ls with
      | nil => cases mark
      | cons l ls =>
        obtain ⟨lead, rest, sign, blank⟩ := signs l List.mem_cons_self
        rw [joinedLines, List.flatMap_cons, sign] at mark
        cases lead with
        | nil => simp at mark
        | cons c lead =>
          obtain rfl : c = '\ufeff' := by simpa using (List.cons.inj mark).1
          exact absurd (blank _ List.mem_cons_self) (by decide)
    next => rfl
  have unguarded : Linkage.strip (joinedLines ls) = joinedLines ls :=
    strip_joinedLines fun l hl => by
      obtain ⟨lead, rest, sign, blank⟩ := signs l hl
      exact ⟨line l hl, lead, rest, sign, fun c hc => isBlank_of_isSpace (blank c hc)⟩
  rw [tokensOf, String.toList_ofList, unguarded, plain]
  have noBlanks : IsIdle [] := isIdle_of_space (List.forall_mem_nil _)
  exact tokensFrom_directives h noBlanks _ (Nat.lt_succ_of_le (length_le_joinedLines ls))

end Rows

end ConstLookup.Source
