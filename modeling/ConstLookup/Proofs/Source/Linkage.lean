import ConstLookup.Proofs.Source.LinkageBrace

/-!
  Blanked linkage braces. The lines of a text are kept, each with its length and its end
  (`Stripped`): a line is changed only if it is no directive and holds a linkage brace, and then it
  is blank. So the directives that drive the states are the same in the blanked text, and blanking
  it again changes nothing (`lines_strip`).
-/

namespace ConstLookup.Linkage

open ConstLookup.Text

/-! ## Blanked lines -/

/-- The carriage returns and the line feed at the end of a line. -/
def lineEnd (line : List Char) : List Char := line.drop (content line).length

theorem exists_content (line : List Char) :
    line = content line ++ lineEnd line ∧ ∀ c ∈ lineEnd line, c = '\r' ∨ c = '\n' := by
  obtain ⟨ending, whole, feeds⟩ := exists_dropEndWhile (fun c => c = '\r' || c = '\n') line
  rw [← content] at whole
  have ends : lineEnd line = ending := by
    rw [lineEnd, congrArg (List.drop _) whole, List.drop_left]
  rw [ends]
  exact ⟨whole, by simpa using feeds⟩

theorem content_blank (line : List Char) : content (blank line) = blank (content line) := by
  refine dropEndWhile_map (fun c => ?_) line
  split
  next => rfl
  next other =>
    rw [Bool.not_eq_true] at other
    rw [other]
    rfl

theorem lineEnd_blank (line : List Char) : lineEnd (blank line) = lineEnd line := by
  have kept : blank (lineEnd line) = lineEnd line := by
    refine (List.map_congr_left fun c hc => ?_).trans (List.map_id _)
    rcases (exists_content line).2 c hc with rfl | rfl <;> rfl
  rw [lineEnd, content_blank, blank, blank, List.length_map, ← List.map_drop, ← blank, ← lineEnd,
    kept]

theorem blank_eq_space {text : List Char} (h : '\n' ∉ text) :
    ∀ c ∈ blank text, c = ' ' ∨ c = '\r' := by
  intro c hc
  obtain ⟨d, mem, rfl⟩ := List.mem_map.mp hc
  have line : d ≠ '\n' := ne_of_mem_of_not_mem mem h
  by_cases feed : d = '\r' <;> simp [feed, line]

section Blanks

variable {text : List Char}

theorem directive?_blanks (h : ∀ c ∈ text, c = ' ' ∨ c = '\r') : directive? text = none := by
  have blanks : ∀ c ∈ text, isBlank c = true := by
    intro c hc
    rcases h c hc with rfl | rfl <;> decide
  rw [directive?, List.dropWhile_eq_nil_iff.mpr blanks]

theorem Brace.mem {brace : List Char} (h : Brace brace) : '\x7b' ∈ brace ∨ '\x7d' ∈ brace := by
  cases h with
  | opening => simp
  | closing => simp
  | terminated => simp

theorem isBrace_blanks (h : ∀ c ∈ text, c = ' ' ∨ c = '\r') : isBrace text = false := by
  rw [isBrace]
  cases found : afterBrace? text with
  | none => rfl
  | some rest =>
    obtain ⟨lead, brace, gap, rfl, shape, -⟩ := exists_of_afterBrace? found
    rcases shape.mem with mem | mem
    · have other := h '\x7b' (by simp [mem])
      exact absurd other (by decide)
    · have other := h '\x7d' (by simp [mem])
      exact absurd other (by decide)

end Blanks

/-! ## Stripped lines -/

/-- The line as it is given out, and the state after it. -/
def State.strip (s : State) (line : List Char) : List Char × State :=
  match directive? (content line) with
  | some directive => (line, s.after (content line) directive)
  | none =>
    (if (s.guard.map Guard.isCpp).getD false && isBrace (content line) then blank line else line, s)

theorem stripLines_cons (s : State) (line : List Char) (rest : List (List Char)) :
    stripLines s (line :: rest) = (s.strip line).1 :: stripLines (s.strip line).2 rest := by
  rw [stripLines, State.strip]
  cases directive? (content line) <;> rfl

/-- A line is kept, or it is that of a linkage brace and becomes blank. -/
theorem State.strip_cases (s : State) (line : List Char) :
    (s.strip line).1 = line ∨ directive? (content line) = none ∧ isBrace (content line) = true ∧
      s.strip line = (blank line, s) := by
  rw [State.strip]
  split
  next => exact .inl rfl
  next plain =>
    split
    next hides => exact .inr ⟨plain, (Bool.and_eq_true_iff.mp hides).2, rfl⟩
    next => exact .inl rfl

/-- A blank line is kept, and the state with it. -/
theorem State.strip_strip (s : State) {line : List Char} (h : '\n' ∉ content line) :
    s.strip (s.strip line).1 = s.strip line := by
  rcases s.strip_cases line with same | ⟨-, -, changed⟩
  · rw [same]
  · have blanks := blank_eq_space h
    rw [changed, State.strip, content_blank, directive?_blanks blanks]
    dsimp only
    rw [isBrace_blanks blanks, Bool.and_false]
    rfl

/-- What stripping makes of a line. -/
structure Stripped (line line' : List Char) : Prop where
  length : line'.length = line.length
  lineEnd : lineEnd line' = lineEnd line
  /-- Only a line that is no directive and holds a brace is changed, and then it is blank; a
  carriage return in it stays. -/
  change : line' = line ∨ directive? (content line) = none ∧
    (OnlyBrace (content line) ∨ BetweenComments (content line)) ∧
      ∀ c ∈ content line', c = ' ' ∨ c = '\r'

theorem State.strip_stripped (s : State) {line : List Char} (h : '\n' ∉ content line) :
    Stripped line (s.strip line).1 := by
  rcases s.strip_cases line with same | ⟨plain, brace, changed⟩
  · rw [same]
    exact ⟨rfl, rfl, .inl rfl⟩
  · rw [changed]
    refine ⟨List.length_map _, lineEnd_blank line, .inr ⟨plain, (isBrace_iff _).mp brace, ?_⟩⟩
    rw [content_blank]
    exact blank_eq_space h

section Lines

variable {ls : List (List Char)}

theorem stripped_stripLines (h : ∀ l ∈ ls, '\n' ∉ content l) (s : State) :
    List.Forall₂ Stripped ls (stripLines s ls) := by
  induction ls generalizing s with
  | nil => exact .nil
  | cons line rest ih =>
    obtain ⟨own, others⟩ := List.forall_mem_cons.mp h
    rw [stripLines_cons]
    exact .cons (s.strip_stripped own) (ih others _)

/-- The directives drive the states in the same way again. -/
theorem stripLines_stripLines (h : ∀ l ∈ ls, '\n' ∉ content l) (s : State) :
    stripLines s (stripLines s ls) = stripLines s ls := by
  induction ls generalizing s with
  | nil => rfl
  | cons line rest ih =>
    obtain ⟨own, others⟩ := List.forall_mem_cons.mp h
    rw [stripLines_cons, stripLines_cons, s.strip_strip own, ih others]

theorem content_newline (body : List Char) : content (body ++ ['\n']) = content body :=
  dropEndWhile_trail (List.forall_mem_singleton.mpr rfl) body

theorem not_mem_content {body : List Char} (h : '\n' ∉ body) : '\n' ∉ content body := by
  intro mem
  rw [(exists_content body).1] at h
  exact h (List.mem_append_left _ mem)

theorem noNewline_of_isLines (h : IsLines ls) : ∀ l ∈ ls, '\n' ∉ content l := by
  induction h with
  | nil => nofun
  | last line => exact List.forall_mem_singleton.mpr (not_mem_content line)
  | @cons body _ line _ ih =>
    refine List.forall_mem_cons.mpr ⟨?_, ih⟩
    rw [content_newline]
    exact not_mem_content line

/-- A blank line keeps its line feed and gets no other. -/
theorem isLines_stripLines (h : IsLines ls) (s : State) : IsLines (stripLines s ls) := by
  have keeps {body : List Char} (line : '\n' ∉ body) : '\n' ∉ blank body := by
    intro mem
    exact absurd (blank_eq_space line _ mem) (by decide)
  induction h generalizing s with
  | nil => exact .nil
  | @last body line nonempty =>
    rw [stripLines_cons]
    rcases s.strip_cases body with same | ⟨-, -, changed⟩
    · rw [same]
      exact .last line nonempty
    · rw [changed]
      exact .last (keeps line) (by simpa [blank] using nonempty)
  | @cons body rest line more ih =>
    rw [stripLines_cons]
    rcases s.strip_cases (body ++ ['\n']) with same | ⟨-, -, changed⟩
    · rw [same]
      exact .cons line (ih _)
    · have ends : blank (body ++ ['\n']) = blank body ++ ['\n'] := List.map_append
      rw [changed, ends]
      exact .cons (keeps line) (ih _)

end Lines

/-! ## Stripped texts -/

/-- Stripping keeps the lines of a text, each with its length and its end. Only lines of linkage
braces are changed, and stripping again changes nothing. -/
theorem lines_strip (cs : List Char) :
    List.Forall₂ Stripped (lines cs) (lines (strip cs)) ∧ strip (strip cs) = strip cs := by
  have whole := isLines_lines cs
  -- no line is joined with the next one or cut, so the given text has the given lines
  have after : lines (strip cs) = stripLines {} (lines cs) :=
    (isLines_stripLines whole {}).lines_flatten
  have noNewline := noNewline_of_isLines whole
  constructor
  · rw [after]
    exact stripped_stripLines noNewline {}
  · rw [strip, after, stripLines_stripLines noNewline, ← strip]

/-- Code between two comments is blanked with the brace before them. -/
theorem strip_blanks_code :
    strip "#ifdef __cplusplus\n\x7d /* a */ int x; /* b */\n#endif\n".toList =
        "#ifdef __cplusplus\n                        \n#endif\n".toList ∧
      ¬ OnlyBrace "\x7d /* a */ int x; /* b */".toList := by
  constructor
  · decide +kernel
  · rw [onlyBrace_iff]
    rintro ⟨remark, found, only⟩
    have read : remark? "\x7d /* a */ int x; /* b */".toList =
        some ('/' :: '*' :: (" a */ int x; /* b ".toList ++ ['*', '/'])) := by decide
    obtain rfl := Option.some.inj (read.symm.trans found)
    rcases only with none | comment
    · cases none
    · exact (comment_block_iff _).mp comment ⟨" a ".toList, " int x; /* b ".toList, rfl⟩

/-! ## Texts that do not ask for C++ -/

theorem infix_of_asksForCpp {text : List Char} (h : asksForCpp text = true) :
    "__cplusplus".toList <:+: text := by
  have blanks (cs : List Char) : skipLineBlanks cs <:+ cs := List.dropWhile_suffix _
  rw [asksForCpp] at h
  split at h
  next rest sign =>
    obtain ⟨word, -, asks⟩ := List.any_eq_true.mp h
    split at asks
    next condition found =>
      have behind : condition <:+ skipLineBlanks rest := ⟨_, (afterWord?_eq_some_iff.mp found).1.symm⟩
      have sign : '#' :: rest <:+ text := sign ▸ blanks text
      exact (infix_of_containsWord asks).trans
        (((behind.trans (blanks rest)).trans (List.suffix_cons '#' rest)).trans sign).isInfix
    next => cases asks
  next => cases h

/-- No guard is opened by a line that does not ask for C++. -/
theorem State.guard_after {s : State} (h : s.guard = none) {text : List Char}
    (other : asksForCpp text = false) (directive : List Char) :
    (s.after text directive).guard = none := by
  rw [State.after]
  dsimp only
  split
  · rw [h, other]
    rfl
  · split
    · rw [h]
      rfl
    · split
      · rw [h]
        rfl
      · exact h

theorem stripLines_unguarded {ls : List (List Char)}
    (h : ∀ l ∈ ls, asksForCpp (content l) = false) {s : State} (hs : s.guard = none) :
    stripLines s ls = ls := by
  induction ls generalizing s with
  | nil => rfl
  | cons line rest ih =>
    obtain ⟨own, others⟩ := List.forall_mem_cons.mp h
    have kept : (s.strip line).1 = line ∧ (s.strip line).2.guard = none := by
      rw [State.strip]
      split
      next => exact ⟨rfl, State.guard_after hs own _⟩
      next =>
        rw [hs]
        exact ⟨rfl, rfl⟩
    rw [stripLines_cons, kept.1, ih others kept.2]

/-- A text without the word `__cplusplus` is given back. -/
theorem strip_eq_self {cs : List Char} (h : containsText "__cplusplus".toList cs = false) :
    strip cs = cs := by
  have other : ∀ l ∈ lines cs, asksForCpp (content l) = false := by
    intro l hl
    by_contra asks
    rw [Bool.not_eq_false] at asks
    have inLine : content l <:+: l := ⟨[], lineEnd l, (exists_content l).1.symm⟩
    obtain ⟨front, back, cut⟩ := List.append_of_mem hl
    have inText : l <:+: cs := ⟨front.flatten, back.flatten, by
      rw [← flatten_lines cs, cut, List.flatten_append, List.flatten_cons, List.append_assoc]⟩
    have found := containsText_iff.mpr (((infix_of_asksForCpp asks).trans inLine).trans inText)
    rw [h] at found
    cases found
  rw [strip, stripLines_unguarded other rfl, flatten_lines]

end ConstLookup.Linkage
