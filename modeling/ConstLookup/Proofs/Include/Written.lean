import ConstLookup.Proofs.Include.Comments
import ConstLookup.Proofs.Include.Pruning
import ConstLookup.Proofs.Source.Condition
import ConstLookup.Proofs.Source.DirectiveLines

/-!
  The lines of includes and of conditional blocks, as the lexer and the scan for includes read them.
  The lexer makes one directive of each line (`IncludeLine.oneDirective`, `TestLine.opens`,
  `TestLine.elseOpens`, `BareLine.oneDirective`). The scan looks for a word of its own after the
  sign (`conditional?_word`), and finds the path of an include (`IncludeLine.includeOf?_text`).
  Neither finds a comment in a line.
-/

namespace ConstLookup.Include

open ConstLookup.Text ConstLookup.Source ConstLookup.Source.Lexer

/-! ## Words after a sign -/

/-- The words of the lines. -/
def lineWords : List String :=
  ["include", "if", "ifdef", "ifndef", "elif", "elifdef", "elifndef", "else", "endif"]

theorem directiveWord_line {word : String} (h : word ∈ lineWords) : DirectiveWord word :=
  .of_mem h (by decide)

theorem lineWord_not_special {word : String} (h : word ∈ lineWords) :
    ∀ c ∈ word.toList, c ∉ special := by
  have none : ∀ w ∈ lineWords, ∀ c ∈ w.toList, c ∉ special := by
    simp only [← List.all_iff_forall_prop]
    decide
  exact none word h

theorem head_lineWord {word : String} (h : word ∈ lineWords) (rest : List Char) :
    ∀ c ∈ (word.toList ++ rest).head?, isLineBlank c = false := by
  have named := directiveWord_line h
  obtain ⟨c, cs, text⟩ := List.exists_cons_of_ne_nil named.ne_nil
  rw [text]
  rintro _ ⟨⟩
  exact named.not_blank c (by rw [text]; exact List.mem_cons_self)

/-- Blanks around a sign are skipped. -/
theorem afterHash?_sign (s : Sign) {rest : List Char}
    (h : ∀ c ∈ rest.head?, isLineBlank c = false) : afterHash? (s.text ++ rest) = some rest := by
  rw [Sign.text, List.append_assoc, List.cons_append]
  exact afterHash?_spaced s.before_blank s.after_blank h

/-- The scan knows the words of its own conditionals, and no others. -/
theorem conditional?_word (s : Sign) {word : String} (h : word ∈ lineWords) {argument : List Char}
    (apart : ∀ c ∈ argument.head?, isWord c = false) :
    conditional? (s.text ++ (word.toList ++ argument)) =
      (Conditional.all.find? (·.word = word)).map fun d => (d, argument.takeWhile (· ≠ '\n')) := by
  have named := directiveWord_line h
  rw [Sign.text, List.append_assoc, List.cons_append]
  exact conditional?_spaced s.before_blank s.after_blank named.ne_nil named.isWord apart

/-! ## Includes -/

/-- The mark before the path of an include. -/
def Kind.opening : Kind → Char
  | quoted => '"'
  | angled => '<'

/-- The mark after the path of an include. -/
def Kind.closing : Kind → Char
  | quoted => '"'
  | angled => '>'

/-- A text that is a path between the marks of an include. No backslash of a quoted path takes its
closing mark along, and no comment begins in one between angle brackets. -/
structure IsPath (kind : Kind) (name : List Char) : Prop where
  nonempty : name ≠ []
  line : '\n' ∉ name
  open' : kind.closing ∉ name
  closed : kind = .quoted → afterQuoted? '"' (name ++ ['"']) = some []
  noComment : kind = .angled → opensComment name = false

/-- The line of an include with its path, without its line feed. -/
structure IncludeLine where
  sign : Sign
  gap : List Char
  kind : Kind
  name : List Char
  ending : List Char
  gap_blank : ∀ c ∈ gap, isLineBlank c = true
  path : IsPath kind name
  ends : ending = [] ∨ ending = ['\r']

namespace IncludeLine

variable (l : IncludeLine)

/-- What stands after the word of the directive. -/
def argument : List Char := l.gap ++ l.kind.opening :: (l.name ++ l.kind.closing :: l.ending)

/-- The text of the line. -/
def text : List Char := l.sign.text ++ ("include".toList ++ l.argument)

/-- The include that the line asks for. -/
def target : Kind × String := (l.kind, String.ofList l.name)

theorem head_argument (rest : List Char) : ∀ c ∈ (l.argument ++ rest).head?, isWord c = false := by
  have opening : ∀ k : Kind, isWord k.opening = false := by
    intro k
    cases k <;> decide
  rw [argument]
  cases gap : l.gap with
  | nil =>
    rintro _ ⟨⟩
    exact opening l.kind
  | cons c cs =>
    rintro _ ⟨⟩
    have mem : c ∈ l.gap := by rw [gap]; exact List.mem_cons_self
    exact isWord_of_isSpace (isSpace_of_isLineBlank (l.gap_blank c mem))

theorem afterPath?_argument (rest : List Char) :
    afterPath? (l.argument ++ rest) = some (l.ending ++ rest) := by
  have whole : l.argument ++ rest =
      l.gap ++ (l.kind.opening :: (l.name ++ l.kind.closing :: (l.ending ++ rest))) := by
    simp [argument]
  have mark : ∀ k : Kind, isGap k.opening = false ∧ k.opening ≠ '\\' ∧ k.opening ≠ '/' := by
    intro k
    cases k <;> decide
  have solid : Solid (l.kind.opening :: (l.name ++ l.kind.closing :: (l.ending ++ rest))) := by
    refine ⟨?_, afterComment?_eq_none _ (mark l.kind).2.2⟩
    rintro _ ⟨⟩
    exact ⟨(mark l.kind).1, (mark l.kind).2.1⟩
  have start := afterLineGap_append (fun c hc => isGap_of_isLineBlank (l.gap_blank c hc)) solid
    (show l.gap.length < (l.argument ++ rest).length + 1 by
      rw [whole, List.length_append]; omega)
  rw [← whole] at start
  rw [afterPath?, start]
  obtain ⟨-, line, open', closed, -⟩ := l.path
  cases kind : l.kind with
  | quoted =>
    have path := afterQuoted?_append (by decide) (closed kind) (l.ending ++ rest)
    rw [List.append_assoc] at path
    exact path
  | angled =>
    rw [kind] at open'
    have path : (l.name ++ '>' :: (l.ending ++ rest)).dropWhile (fun c => c ≠ '>' && c ≠ '\n') =
        '>' :: (l.ending ++ rest) := by
      refine dropWhile_run (fun c hc => ?_) ?_
      · have mark : c ≠ '>' := by
          rintro rfl
          exact open' hc
        have feed : c ≠ '\n' := fun same => line (same ▸ hc)
        simp [mark, feed]
      · rintro _ ⟨⟩
        rfl
    simp only [Kind.opening, Kind.closing]
    rw [path]
    rfl

/-- The lexer makes one directive of the line, to which its line feed belongs. -/
theorem oneDirective :
    OneDirective l.text .inert
      ('#' :: (l.sign.after ++ ("include".toList ++ (l.argument ++ ['\n'])))) := by
  have word := directiveWord_line (List.mem_cons_self : "include" ∈ lineWords)
  refine .of_word l.sign word (List.append_nil _).symm nofun (l.head_argument _)
    fun spelling next => ⟨true, ?_⟩
  have path := l.afterPath?_argument ('\n' :: next)
  have cut : ∀ steps, endOfDirective none (steps + 1) (l.ending ++ '\n' :: next) =
      { value := none, rest := next, sound := true } := by
    intro steps
    rcases l.ends with ending | ending <;> rw [ending] <;> rfl
  have read : inclusion (l.argument ++ '\n' :: next) = (.inert, next, true) := by
    rw [inclusion, path]
    dsimp only
    rw [cut]
  rw [List.append_assoc]
  exact read

theorem enclosed?_eq {close : Char} {name : List Char} (nonempty : name ≠ []) (line : '\n' ∉ name)
    (open' : close ∉ name) (rest : List Char) :
    enclosed? close (name ++ close :: rest) = some (String.ofList name) := by
  have inside : ∀ c ∈ name, (c ≠ close && c ≠ '\n') = true := fun c hc => by
    have mark : c ≠ close := fun same => open' (same ▸ hc)
    have feed : c ≠ '\n' := fun same => line (same ▸ hc)
    simp [mark, feed]
  have start : (name ++ close :: rest).takeWhile (fun c => c ≠ close && c ≠ '\n') = name :=
    takeWhile_run inside (by rintro _ ⟨⟩; simp)
  rw [enclosed?, start]
  simp [nonempty]

/-- The path is found whatever stands around the sign and after the line. -/
theorem includeOf?_text (s : Sign) (rest : List Char) :
    includeOf? (s.text ++ ("include".toList ++ (l.argument ++ rest))) = some l.target := by
  have head : ∀ c ∈ ("include".toList ++ (l.argument ++ rest)).head?, isLineBlank c = false := by
    rintro _ ⟨⟩
    decide
  have word : after? "include".toList ("include".toList ++ (l.argument ++ rest)) =
      some (l.argument ++ rest) := after?_eq_some_iff.mpr rfl
  have mark : ∀ k : Kind, isLineBlank k.opening = false := by
    intro k
    cases k <;> decide
  have start : skipLineBlanks (l.argument ++ rest) =
      l.kind.opening :: (l.name ++ l.kind.closing :: (l.ending ++ rest)) := by
    rw [argument, List.append_assoc]
    simp only [List.cons_append, List.append_assoc]
    refine dropWhile_run l.gap_blank ?_
    rintro _ ⟨⟩
    exact mark l.kind
  rw [includeOf?, afterHash?_sign s head, Option.bind_some, word, Option.map_some, start, target]
  have path := enclosed?_eq l.path.nonempty l.path.line l.path.open' (l.ending ++ rest)
  cases kind : l.kind with
  | quoted =>
    rw [kind] at path
    exact congrArg (Option.map fun name => (Kind.quoted, name)) path
  | angled =>
    rw [kind] at path
    exact congrArg (Option.map fun name => (Kind.angled, name)) path

/-- The scan finds no conditional directive in the line. -/
theorem conditional?_text : conditional? (l.text ++ ['\n']) = none := by
  rw [text, List.append_assoc, List.append_assoc,
    conditional?_word l.sign (by decide) (l.head_argument ['\n'])]
  rfl

/-- What stands before the path has no slash, quote or backslash. -/
theorem text_eq : ∃ front, (∀ c ∈ front, c ∉ special) ∧
    l.text = front ++ l.kind.opening :: (l.name ++ l.kind.closing :: l.ending) := by
  refine ⟨l.sign.text ++ ("include".toList ++ l.gap), fun c hc => ?_, by simp [text, argument]⟩
  simp only [List.mem_append] at hc
  rcases hc with mem | mem | mem
  · exact l.sign.not_special c mem
  · exact lineWord_not_special (List.mem_cons_self : "include" ∈ lineWords) c mem
  · exact not_special_of_isGap (isGap_of_isLineBlank (l.gap_blank c mem))

theorem ending_plain : ∀ c ∈ l.ending, c = '\r' := by
  rcases l.ends with ending | ending <;> simp [ending]

theorem noNewline : '\n' ∉ l.text := by
  obtain ⟨front, plain, text⟩ := l.text_eq
  have marks : ∀ k : Kind, '\n' ≠ k.opening ∧ '\n' ≠ k.closing := by
    intro k
    cases k <;> decide
  have noFront : '\n' ∉ front := fun mem => plain _ mem (by decide)
  have noEnding : '\n' ∉ l.ending := fun mem => absurd (l.ending_plain _ mem) (by decide)
  rw [text]
  simp [noFront, marks, l.path.line, noEnding]

theorem uncommented : Uncommented l.text := by
  obtain ⟨front, plain, text⟩ := l.text_eq
  obtain ⟨-, line, open', closed, noComment⟩ := l.path
  cases kind : l.kind with
  | quoted =>
    rw [kind] at open' text
    intro next
    have ending : IsRest l.ending := by
      rcases l.ends with ending | ending <;> rw [ending] <;> exact ⟨by decide, by decide, rfl⟩
    have whole : l.text ++ '\n' :: next =
        front ++ '"' :: (l.name ++ '"' :: (l.ending ++ '\n' :: next)) := by
      simp [text, Kind.opening, Kind.closing]
    have quote : stripFrom .code ('"' :: (l.name ++ '"' :: (l.ending ++ '\n' :: next))) =
        '"' :: stripFrom (.quoted '"') (l.name ++ '"' :: (l.ending ++ '\n' :: next)) := rfl
    rw [whole, stripFrom_plain plain, quote, stripFrom_quoted line open' (closed kind),
      uncommented_of_rest ending]
    simp [text, Kind.opening, Kind.closing]
  | angled =>
    rw [kind] at open' text
    rw [text]
    have noEnding : opensComment ('>' :: l.ending) = false := by
      rcases l.ends with ending | ending <;> rw [ending] <;> rfl
    have path : opensComment ('<' :: (l.name ++ '>' :: l.ending)) = false :=
      opensComment_of_append (noComment kind) (by decide) noEnding
    have last : '\n' ∉ '>' :: l.ending ∧
        ∀ part ∈ [['\\'], ['\\', '\r']], ¬ part <:+ '>' :: l.ending ∧ '>' ∉ part := by
      rcases l.ends with ending | ending <;> rw [ending] <;> decide
    have noSplice : ∀ part ∈ [['\\'], ['\\', '\r']],
        ¬ part <:+ '<' :: (l.name ++ '>' :: l.ending) := by
      intro part known s
      have own : '>' :: l.ending <:+ '<' :: (l.name ++ '>' :: l.ending) :=
        (List.suffix_append l.name _).trans (List.suffix_cons _ _)
      rcases List.suffix_or_suffix_of_suffix s own with shorter | longer
      · exact (last.2 part known).1 shorter
      · exact (last.2 part known).2 (longer.subset List.mem_cons_self)
    have noFeed : '\n' ∉ '<' :: (l.name ++ '>' :: l.ending) := by
      have noEnding := last.1
      simp only [List.mem_cons, not_or] at noEnding
      simp [line, noEnding]
    exact uncommented_of_rest
      (IsRest.append plain ⟨noFeed, ⟨noSplice _ (by simp), noSplice _ (by simp)⟩, path⟩)

end IncludeLine

/-! ## Tests -/

/-- What stands after `if` or `elif`: any text without comments, whose blanks are those of C. -/
structure ConditionText where
  text : List Char
  rest : IsRest text
  apart : ∀ c ∈ text.head?, isWord c = false
  blank : ∀ c ∈ text, isBlank c = true → isGap c = true

/-- What stands after the word of a directive that asks for the definition of a macro. -/
structure NameText where
  negated : Bool
  lead : List Char
  name : List Char
  trail : List Char
  lead_gap : ∀ c ∈ lead, isGap c = true
  apart : lead ≠ []
  named : IsName name
  trail_gap : ∀ c ∈ trail, isGap c = true

/-- What a line asks for that begins a branch. -/
inductive Question where
  | value (c : ConditionText)
  | named (n : NameText)

namespace Question

/-- The end of the word of the directive. -/
def word : Question → String
  | value _ => ""
  | named n => if n.negated then "ndef" else "def"

/-- What stands after the word of the directive. -/
def argument : Question → List Char
  | value c => c.text
  | named n => n.lead ++ (n.name ++ n.trail)

/-- The test that the lexer reads. -/
def test : Question → Test
  | value c => (conditionTest c.text).1
  | named n =>
    if n.negated then .undefined (some (String.ofList n.name))
    else .defined (some (String.ofList n.name))

variable (q : Question)

theorem word_mem : q.word ∈ ["", "def", "ndef"] := by
  cases q with
  | value c => exact List.mem_cons_self
  | named n => cases h : n.negated <;> simp [word, h]

theorem rest : IsRest q.argument := by
  cases q with
  | value c => exact c.rest
  | named n =>
    have none : IsRest [] := ⟨List.not_mem_nil, by decide, rfl⟩
    have plain : ∀ c ∈ n.lead ++ (n.name ++ n.trail), c ∉ special := by
      intro c hc
      simp only [List.mem_append] at hc
      rcases hc with mem | mem | mem
      · exact not_special_of_isGap (n.lead_gap c mem)
      · exact not_special_of_continuesWord (n.named.continuesWord c mem)
      · exact not_special_of_isGap (n.trail_gap c mem)
    simpa [argument] using none.append plain

theorem head_argument : ∀ c ∈ (q.argument ++ ['\n']).head?, isWord c = false := by
  cases q with
  | value c =>
    intro d hd
    cases text : c.text with
    | nil =>
      rw [argument, text] at hd
      cases hd
      decide
    | cons e cs =>
      rw [argument, text] at hd
      exact c.apart d (by rw [text]; exact hd)
  | named n =>
    rw [argument, List.append_assoc]
    exact head_lead n.lead_gap n.apart

/-- The test is read, and only blanks are left of the line. -/
theorem reads : ∃ front trail, q.argument = front ++ trail ∧ (∀ c ∈ trail, isGap c = true) ∧
    ∀ next, ∃ sound,
      readTest q.word (front ++ (trail ++ '\n' :: next)) =
        (q.test, trail ++ '\n' :: next, sound) := by
  cases q with
  | value c =>
    exact ⟨c.text, [], (List.append_nil _).symm, nofun,
      fun next => conditionTest_line c.rest (.line next)⟩
  | named n =>
    refine ⟨n.lead ++ n.name, n.trail, by simp [argument], n.trail_gap, fun next => ⟨true, ?_⟩⟩
    rw [List.append_assoc]
    cases negated : n.negated with
    | true =>
      simpa [word, test, negated, readTest] using
        nameTest_eq .undefined n.lead_gap n.named (head_trail n.trail_gap)
    | false =>
      simpa [word, test, negated, readTest] using
        nameTest_eq .defined n.lead_gap n.named (head_trail n.trail_gap)

end Question

/-- A line that begins a branch with a test, without its line feed. -/
structure TestLine where
  sign : Sign
  question : Question

/-- The text of the line, where `stem` begins its word. -/
def TestLine.text (l : TestLine) (stem : String) : List Char :=
  l.sign.text ++ ((stem ++ l.question.word).toList ++ l.question.argument)

/-- A line with a sign and a word and nothing else, without its line feed. -/
structure BareLine where
  sign : Sign
  trail : List Char
  trail_gap : ∀ c ∈ trail, isGap c = true

/-- The text of the line. -/
def BareLine.text (l : BareLine) (word : String) : List Char :=
  l.sign.text ++ (word.toList ++ l.trail)

/-- No include is found after another word. -/
theorem includeOf?_word (s : Sign) {word : String} (h : word ∈ lineWords) (other : word ≠ "include")
    (rest : List Char) : includeOf? (s.text ++ (word.toList ++ rest)) = none := by
  -- the first two characters tell the words from that of an include
  have starts : ∀ w ∈ lineWords, w ≠ "include" →
      2 ≤ w.toList.length ∧ w.toList.take 2 ≠ ['i', 'n'] := by
    decide
  have none : after? "include".toList (word.toList ++ rest) = none := by
    rw [Option.eq_none_iff_forall_ne_some]
    intro found same
    obtain ⟨long, apart⟩ := starts word h other
    have start := congrArg (List.take 2) (after?_eq_some_iff.mp same)
    rw [List.take_append_of_le_length long] at start
    exact apart start
  rw [includeOf?, afterHash?_sign s (head_lineWord h rest), Option.bind_some, none]
  rfl

/-- A line with another word than that of an include is one directive, in which no include is
found. -/
theorem oneDirective_word (s : Sign) {word : String} (h : word ∈ lineWords)
    (other : word ≠ "include") {front trail : List Char} (gap : ∀ c ∈ trail, isGap c = true)
    (apart : ∀ c ∈ (front ++ trail ++ ['\n']).head?, isWord c = false) {d : Directive}
    (reads : ∀ spelling next, ∃ sound,
      directive word spelling (front ++ (trail ++ '\n' :: next)) =
        (d, trail ++ '\n' :: next, sound)) :
    ∃ shown, OneDirective (s.text ++ (word.toList ++ (front ++ trail))) d shown ∧
      includeOf? shown = none := by
  refine ⟨_, .of_word s (directiveWord_line h) (List.append_assoc front trail ['\n'])
    (isSpace_trail gap) apart fun spelling next => ?_, ?_⟩
  · obtain ⟨sound, reads⟩ := reads spelling next
    exact ⟨sound, by simpa using reads⟩
  · have none : ∀ c ∈ ([] : List Char), isLineBlank c = true := nofun
    exact includeOf?_word ⟨[], s.after, none, s.after_blank⟩ h other front

namespace TestLine

variable (l : TestLine)

theorem mem_lineWords :
    "if" ++ l.question.word ∈ lineWords ∧ "elif" ++ l.question.word ∈ lineWords ∧
      "if" ++ l.question.word ≠ "include" ∧ "elif" ++ l.question.word ≠ "include" := by
  have words : ∀ w ∈ ["", "def", "ndef"], "if" ++ w ∈ lineWords ∧ "elif" ++ w ∈ lineWords ∧
      "if" ++ w ≠ "include" ∧ "elif" ++ w ≠ "include" := by decide
  exact words _ l.question.word_mem

theorem rest {stem : String} (h : stem ++ l.question.word ∈ lineWords) : IsRest (l.text stem) :=
  (l.question.rest.append (lineWord_not_special h)).append l.sign.not_special

/-- The lexer reads a line with `if`. -/
theorem opens : ∃ shown, OneDirective (l.text "if") (.opens l.question.test) shown ∧
    includeOf? shown = none := by
  obtain ⟨front, trail, argument, gap, reads⟩ := l.question.reads
  obtain ⟨mem, -, other, -⟩ := l.mem_lineWords
  have apart := l.question.head_argument
  rw [text, argument]
  rw [argument] at apart
  refine oneDirective_word l.sign mem other gap apart fun spelling next => ?_
  obtain ⟨sound, reads⟩ := reads next
  exact ⟨sound, by rw [(directive_if l.question.word_mem _ _).1, reads]⟩

/-- The lexer reads a line with `elif`. -/
theorem elseOpens : ∃ shown, OneDirective (l.text "elif") (.elseOpens l.question.test) shown ∧
    includeOf? shown = none := by
  obtain ⟨front, trail, argument, gap, reads⟩ := l.question.reads
  obtain ⟨-, mem, -, other⟩ := l.mem_lineWords
  have apart := l.question.head_argument
  rw [text, argument]
  rw [argument] at apart
  refine oneDirective_word l.sign mem other gap apart fun spelling next => ?_
  obtain ⟨sound, reads⟩ := reads next
  exact ⟨sound, by rw [(directive_if l.question.word_mem _ _).2.1, reads]⟩

/-- The scan finds the directive of a line. -/
theorem conditional?_text {stem : String} (h : stem ++ l.question.word ∈ lineWords) :
    conditional? (l.text stem ++ ['\n']) =
      (Conditional.all.find? (·.word = stem ++ l.question.word)).map
        fun d => (d, l.question.argument) := by
  have line : (l.question.argument ++ ['\n']).takeWhile (· ≠ '\n') = l.question.argument :=
    takeWhile_ne l.question.rest.line []
  rw [text, List.append_assoc, List.append_assoc,
    conditional?_word l.sign h l.question.head_argument, line]

end TestLine

namespace BareLine

variable (l : BareLine)

theorem rest {word : String} (h : word ∈ lineWords) : IsRest (l.text word) := by
  have none : IsRest [] := ⟨List.not_mem_nil, by decide, rfl⟩
  have trail := none.append fun c hc => not_special_of_isGap (l.trail_gap c hc)
  rw [List.append_nil] at trail
  exact (trail.append (lineWord_not_special h)).append l.sign.not_special

/-- The lexer reads the line of a directive that asks for nothing. -/
theorem oneDirective {word : String} {d : Directive} (h : word ∈ lineWords)
    (other : word ≠ "include")
    (reads : ∀ spelling rest, directive word spelling rest = (d, rest, true)) :
    ∃ shown, OneDirective (l.text word) d shown ∧ includeOf? shown = none := by
  have apart : ∀ c ∈ ([] ++ l.trail ++ ['\n']).head?, isWord c = false :=
    isWord_trail l.trail_gap []
  exact oneDirective_word l.sign h other l.trail_gap apart
    fun spelling _ => ⟨true, reads spelling _⟩

/-- The scan finds the directive of the line. -/
theorem conditional?_text {word : String} (h : word ∈ lineWords) :
    ∃ condition, conditional? (l.text word ++ ['\n']) =
      (Conditional.all.find? (·.word = word)).map fun d => (d, condition) := by
  rw [text, List.append_assoc, List.append_assoc,
    conditional?_word l.sign h (isWord_trail l.trail_gap [])]
  exact ⟨_, rfl⟩

end BareLine

/-! ## Literal conditions -/

theorem isCondition_digit {d : Char} (h : isDigit d = true) : IsCondition [d] := by
  have gap : ∀ c ∈ ([] : List Char), isGap c = true := nofun
  have ends : (Atom.number [d]).Ends (written []) := nofun
  exact ⟨.number [d], trivial, .number [d], [], rfl, ⟨gap, ⟨h, rfl⟩, ends, trivial⟩, rfl⟩

/-- A literal between blanks is the whole condition. -/
theorem ConditionText.test_of_literal (c : ConditionText) {d : Char} (digit : isDigit d = true)
    (h : trim c.text = [d]) :
    (Question.value c).test = .condition (some (String.ofList [d])) := by
  obtain ⟨lead, trail, text, hl, ht⟩ := exists_trim c.text
  rw [h] at text
  have inside : ∀ x, x ∈ lead ∨ x ∈ trail → x ∈ c.text := fun x mem => by
    rw [text]
    simp only [List.mem_append]
    tauto
  have read := conditionTest_eq (isCondition_digit digit)
    (fun x hx => c.blank x (inside x (.inl hx)) (hl x hx))
    (fun x hx => c.blank x (inside x (.inr hx)) (ht x hx)) []
  obtain ⟨sound, own⟩ := conditionTest_line c.rest (.line [])
  rw [text, List.append_assoc, List.append_assoc, read] at own
  rw [Question.test, text]
  exact (Prod.mk.inj own).1.symm

/-- The value of a literal condition, under all definitions. -/
theorem holds_literal (env : Environment) :
    Test.holds env (.condition (some "0")) = false ∧
      Test.holds env (.condition (some "1")) = true := by
  have plain : HexShield.shield "0" = "0" ∧ HexShield.shield "1" = "1" := by
    simp [HexShield.shield, HexShield.shieldFrom]
  have zero : evaluate (Condition.value? env env) "0" = .ok (some (.int 0)) := by
    rw [evaluate, plain.1]
    rfl
  have one : evaluate (Condition.value? env env) "1" = .ok (some (.int 1)) := by
    rw [evaluate, plain.2]
    rfl
  constructor
  · rw [Test.holds, Condition.holds, Condition.expand_eq_self env (by decide), zero]
    rfl
  · rw [Test.holds, Condition.holds, Condition.expand_eq_self env (by decide), one]
    rfl

end ConstLookup.Include
