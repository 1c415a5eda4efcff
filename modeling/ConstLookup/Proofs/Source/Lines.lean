import ConstLookup.Proofs.Source.Commands

/-!
  Texts of lines that hold a command each. No linkage brace stands in such a text, and it is
  split into one token for each line: the directive of its command, at the start of its line
  (`tokensOf_lines`).
-/

namespace ConstLookup.Source

open ConstLookup.Text ConstLookup.Source.Lexer

/-! ## One line -/

/-- No line end stands in a token of a condition. -/
theorem Atom.noNewline {a : Atom} (h : a.Proper) : '\n' ∉ a.text := by
  cases a with
  | name text =>
    intro mem
    exact absurd (IsName.continuesWord h '\n' mem) (by decide)
  | number text =>
    cases text with
    | nil => exact h.elim
    | cons c cs =>
      have goesOn : ∀ {previous : Char} {cs : List Char}, afterNumber previous cs = [] → '\n' ∉ cs := by
        intro previous cs h
        induction cs generalizing previous with
        | nil => exact List.not_mem_nil
        | cons d cs ih =>
          rw [afterNumber] at h
          split at h
          next continues =>
            rintro (_ | ⟨_, mem⟩)
            · revert continues
              simp [isIdentPart, isAsciiLetter, isDigit]
            · exact ih h mem
          next => cases h
      rintro (_ | ⟨_, mem⟩)
      · exact absurd h.1 (by decide)
      · exact goesOn h.2 mem
  | mark spelling =>
    have none : ∀ s ∈ conditionMarks, '\n' ∉ s.toList := by decide
    exact none spelling h

theorem not_mem_gap {gap : List Char} (h : ∀ c ∈ gap, isGap c = true) : '\n' ∉ gap :=
  fun mem => absurd (h '\n' mem) (by decide)

theorem Separated.noNewline {ps : List (List Char × Atom)} (h : Separated ps) :
    '\n' ∉ written ps := by
  induction ps with
  | nil => exact List.not_mem_nil
  | cons p ps ih =>
    obtain ⟨gap, proper, -, rest⟩ := h
    simp only [written, List.flatMap_cons, List.mem_append, not_or]
    exact ⟨⟨not_mem_gap gap, Atom.noNewline proper⟩, ih rest⟩

theorem IsCondition.noNewline {text : List Char} (h : IsCondition text) : '\n' ∉ text := by
  obtain ⟨f, -, a, ps, -, separated, rfl⟩ := h
  simpa [written] using separated.noNewline

theorem IsName.noNewline {name : List Char} (h : IsName name) : '\n' ∉ name :=
  Atom.noNewline (a := .name name) h

theorem Test.Asks.noNewline {test : Test} {word : String} {argument : List Char}
    (h : test.Asks word argument) : '\n' ∉ word.toList ++ argument := by
  cases h with
  | condition hl h _ ht => simp [not_mem_gap hl, h.noNewline, not_mem_gap ht]
  | defined hl _ h ht => simp [not_mem_gap hl, h.noNewline, not_mem_gap ht]
  | undefined hl _ h ht => simp [not_mem_gap hl, h.noNewline, not_mem_gap ht]

/-- The line of a command is one line, and begins with its sign. -/
theorem Command.Writes.line {c : Command} {text : List Char} (h : c.Writes text) :
    '\n' ∉ text ∧ text.head? = some '#' := by
  cases h with
  | define hl _ h he =>
    rcases he with rfl | rfl <;> simp [not_mem_gap hl, h.noNewline]
  | defineAs hl _ h hg _ hb =>
    have body := hb.noNewline
    simp only [List.mem_cons, not_or] at body
    simp [not_mem_gap hl, h.noNewline, not_mem_gap hg, body]
  | undefine hl _ h ht => simp [not_mem_gap hl, h.noNewline, not_mem_gap ht]
  | opens h =>
    have rest := h.noNewline
    simp only [List.mem_append, not_or] at rest
    simp [rest]
  | elseOpens h =>
    have rest := h.noNewline
    simp only [List.mem_append, not_or] at rest
    simp [rest]
  | otherwise ht => simp [not_mem_gap ht]
  | endif ht => simp [not_mem_gap ht]

/-! ## Texts of lines -/

/-- The text of lines, each with its line feed. -/
def joinedLines (ls : List (List Char)) : List Char := ls.flatMap (· ++ ['\n'])

theorem length_le_joinedLines (ls : List (List Char)) : ls.length ≤ (joinedLines ls).length := by
  induction ls with
  | nil => exact Nat.le_refl _
  | cons l ls ih =>
    have text : joinedLines (l :: ls) = l ++ '\n' :: joinedLines ls := by simp [joinedLines]
    rw [text, List.length_append, List.length_cons, List.length_cons]
    omega

theorem lines_joinedLines {ls : List (List Char)} (h : ∀ l ∈ ls, '\n' ∉ l) :
    lines (joinedLines ls) = ls.map (· ++ ['\n']) := by
  induction ls with
  | nil => rfl
  | cons l ls ih =>
    obtain ⟨line, h⟩ := List.forall_mem_cons.mp h
    have text : joinedLines (l :: ls) = l ++ '\n' :: joinedLines ls := by simp [joinedLines]
    rw [text, lines, linesFrom_append line, ih h]
    rfl

/-- A line of a directive is no linkage brace. -/
theorem stripLines_eq {ls : List (List Char)}
    (h : ∀ l ∈ ls, (Linkage.directive? (Linkage.content l)).isSome) (s : Linkage.State) :
    Linkage.stripLines s ls = ls := by
  induction ls generalizing s with
  | nil => rfl
  | cons l ls ih =>
    obtain ⟨own, others⟩ := List.forall_mem_cons.mp h
    obtain ⟨directive, found⟩ := Option.isSome_iff_exists.mp own
    rw [Linkage.stripLines, found]
    dsimp only
    rw [ih others]

/-- A line that begins with blanks and a sign is one of a directive. -/
theorem isSome_directive? {lead : List Char} (hl : ∀ c ∈ lead, isBlank c = true) (rest : List Char) :
    (Linkage.directive? (Linkage.content (lead ++ '#' :: rest))).isSome := by
  have sign : ∀ c ∈ ('#' :: Linkage.content rest).head?, isBlank c = false := by
    rintro _ ⟨⟩
    decide
  rw [Linkage.content, dropEndWhile_append (by decide), Linkage.directive?, ← Linkage.content,
    dropWhile_run hl sign]
  rfl

theorem strip_joinedLines {ls : List (List Char)}
    (h : ∀ l ∈ ls, '\n' ∉ l ∧ ∃ lead rest, l = lead ++ '#' :: rest ∧ ∀ c ∈ lead, isBlank c = true) :
    Linkage.strip (joinedLines ls) = joinedLines ls := by
  have signs : ∀ l ∈ ls.map (· ++ ['\n']), (Linkage.directive? (Linkage.content l)).isSome := by
    intro l hl
    obtain ⟨l, mem, rfl⟩ := List.mem_map.mp hl
    obtain ⟨-, lead, rest, rfl, blanks⟩ := h l mem
    rw [List.append_assoc, List.cons_append]
    exact isSome_directive? blanks _
  rw [Linkage.strip, lines_joinedLines fun l hl => (h l hl).1, stripLines_eq signs, joinedLines,
    List.flatMap_def]

/-! ## The tokens of commands -/

/-- The tokens are directives that give the commands, in consecutive lines from the given one. -/
inductive GiveFrom : Nat → List Command → List Token → Prop where
  | nil {line : Nat} : GiveFrom line [] []
  | cons {line : Nat} {c : Command} {cs : List Command} {t : Token} {ts : List Token}
      {d : Directive} (kind : t.kind = .directive d) (gives : d.Gives c)
      (position : t.position = { line := line }) (rest : GiveFrom (line + 1) cs ts) :
      GiveFrom line (c :: cs) (t :: ts)

theorem afterAll_append (p : Position) (front rest : List Char) :
    p.afterAll (front ++ rest) = (p.afterAll front).afterAll rest :=
  List.foldl_append

/-- A text without a line end stays in its line. -/
theorem line_afterAll {text : List Char} (h : '\n' ∉ text) (p : Position) :
    (p.afterAll text).line = p.line := by
  induction text generalizing p with
  | nil => rfl
  | cons c text ih =>
    simp only [List.mem_cons, not_or] at h
    have step : (p.after c).line = p.line := by rw [Position.after, if_neg (Ne.symm h.1)]
    rw [Position.afterAll, List.foldl_cons, ← Position.afterAll, ih h.2, step]

theorem afterAll_line {text : List Char} (h : '\n' ∉ text) (p : Position) :
    p.afterAll (text ++ ['\n']) = { line := p.line + 1 } := by
  rw [afterAll_append, ← line_afterAll h p]
  rfl

/-- Blanks before a sign are skipped. -/
theorem afterGap_sign {left : List Char} (h : ∀ c ∈ left, isSpace c = true) (more : List Char) :
    afterGap (left ++ '#' :: more) = '#' :: more := by
  have sign : afterSpace (left ++ '#' :: more) = '#' :: more := afterSpace_append h _
  rw [afterGap, afterGapFrom, sign]
  rfl

theorem afterGap_end {left : List Char} (h : ∀ c ∈ left, isSpace c = true) : afterGap left = [] := by
  have none : afterSpace left = [] := by
    rw [← List.append_nil left, afterSpace_append h, afterSpace.eq_def]
  rw [afterGap, afterGapFrom, none]
  rfl

/-- Every line gives one token; what a directive leaves of its line is a blank before the next. -/
theorem tokensFrom_lines {cs : List Command} {ls : List (List Char)}
    (h : List.Forall₂ Command.Writes cs ls) {left : List Char} (hl : ∀ c ∈ left, isSpace c = true)
    {p : Position} {line : Nat} (hp : p.afterAll left = { line := line }) {steps : Nat}
    (enough : ls.length < steps) :
    GiveFrom line cs (tokensFrom steps p (left ++ joinedLines ls)) := by
  induction h generalizing left p line steps with
  | nil =>
    obtain ⟨steps, rfl⟩ := Nat.exists_eq_add_of_lt enough
    have done : afterGap (left ++ joinedLines []) = [] := by
      rw [joinedLines, List.flatMap_nil, List.append_nil, afterGap_end hl]
    rw [tokensFrom, done]
    exact .nil
  | @cons c l cs ls writes _ ih =>
    obtain ⟨steps, rfl⟩ := Nat.exists_eq_add_of_lt enough
    obtain ⟨used, left', d, text, hl', gives, reads⟩ := writes.readsLine
    obtain ⟨sound, reads⟩ := reads (joinedLines ls)
    have whole : left ++ joinedLines (l :: ls) =
        left ++ '#' :: (used ++ (left' ++ joinedLines ls)) := by
      rw [joinedLines, List.flatMap_cons, text]
      simp [joinedLines]
    have gap : consumed (left ++ '#' :: (used ++ (left' ++ joinedLines ls)))
        ('#' :: (used ++ (left' ++ joinedLines ls))) = left := consumed_append _ _
    have own : consumed ('#' :: (used ++ (left' ++ joinedLines ls))) (left' ++ joinedLines ls) =
        '#' :: used := by
      rw [← List.cons_append, consumed_append]
    have place : ((p.afterAll left).afterAll ('#' :: used)).afterAll left' = { line := line + 1 } := by
      rw [← afterAll_append, List.cons_append, ← text, afterAll_line writes.line.1, hp]
    rw [whole, tokensFrom, afterGap_sign hl]
    dsimp only
    rw [if_pos rfl, reads, gap]
    dsimp only
    rw [own]
    refine .cons rfl gives hp (ih hl' place ?_)
    simp only [List.length_cons] at enough ⊢
    omega

/-- A source made of the lines of commands is split into their directives, one for each line. -/
theorem tokensOf_lines {cs : List Command} {ls : List (List Char)}
    (h : List.Forall₂ Command.Writes cs ls) :
    GiveFrom 1 cs (tokensOf (String.ofList (joinedLines ls))) := by
  have lines : ∀ l ∈ ls, '\n' ∉ l ∧ l.head? = some '#' := by
    induction h with
    | nil => nofun
    | cons writes _ ih => exact List.forall_mem_cons.mpr ⟨writes.line, ih⟩
  have plain : tokens (joinedLines ls) =
      tokensFrom ((joinedLines ls).length + 1) {} (joinedLines ls) := by
    cases ls with
    | nil => rfl
    | cons l ls =>
      obtain ⟨more, rfl⟩ := List.head?_eq_some_iff.mp (lines l List.mem_cons_self).2
      rfl
  have signs : ∀ l ∈ ls, '\n' ∉ l ∧ ∃ lead rest, l = lead ++ '#' :: rest ∧
      ∀ c ∈ lead, isBlank c = true := fun l hl => by
    obtain ⟨line, sign⟩ := lines l hl
    obtain ⟨rest, rfl⟩ := List.head?_eq_some_iff.mp sign
    exact ⟨line, [], rest, rfl, nofun⟩
  rw [tokensOf, String.toList_ofList, strip_joinedLines signs, plain]
  have noBlanks : ∀ c ∈ ([] : List Char), isSpace c = true := nofun
  exact tokensFrom_lines h noBlanks rfl (Nat.lt_succ_of_le (length_le_joinedLines ls))

end ConstLookup.Source
