import ConstLookup.Proofs.Source.DirectiveLines
import ConstLookup.Proofs.Source.Thinning
import ConstLookup.Proofs.Source.Untaken

/-!
  How directives are written. A line is well-formed if the lexer reads it as one directive; the
  lines of commands are (`Command.Writes.exists_wellFormed`). It may have more blanks between its
  sign and its word, and a line that ends a definition may have a comment at its end. All lines but
  those with `#undef` mean the same after that. The latter are looked at as they stand: with a blank
  after the sign they are not known for what they are, and a comment is taken for part of the name.
  So a source with lines respelled is read like the source without the lines with `#undef` that were
  respelled (`declarations_respelled`), and macros stay defined that were not before
  (`declarations_respelled_ne`).
-/

namespace ConstLookup.Source

open ConstLookup.Text ConstLookup.Source.Lexer

/-! ## Lines -/

/-- A line with a directive. -/
structure DirectiveLine where
  sign : Sign
  word : String
  /-- What stands after the word. -/
  argument : List Char

namespace DirectiveLine

/-- The text of the line, without its line feed. -/
def text (l : DirectiveLine) : List Char := l.sign.text ++ (l.word.toList ++ l.argument)

/-- The sign and the word as they are written. -/
def spelling (l : DirectiveLine) : String := String.ofList ('#' :: (l.sign.after ++ l.word.toList))

/-- The lexer reads the line as one directive, and leaves nothing of it, whatever line comes
next. -/
structure Reads (l : DirectiveLine) (d : Directive) : Prop where
  word : l.word ∈ commandWords
  line : '\n' ∉ l.argument
  apart : ∀ c ∈ (l.argument ++ ['\n']).head?, isWord c = false
  reads : ∃ front left, l.argument ++ ['\n'] = front ++ left ∧ IsIdle left ∧ ∀ next, ∃ sound,
    directive l.word l.spelling (front ++ (left ++ next)) = (d, left ++ next, sound)

/-- The line is one directive. -/
def WellFormed (l : DirectiveLine) : Prop := ∃ d, l.Reads d

end DirectiveLine

/-- The source that lines make up. -/
def sourceOf (ls : List DirectiveLine) : String :=
  String.ofList (joinedLines (ls.map DirectiveLine.text))

namespace DirectiveLine

variable {l : DirectiveLine} {d : Directive}

theorem Reads.oneDirective (h : l.Reads d) : ∃ text, OneDirective l.text d text := by
  obtain ⟨front, left, rest, idle, reads⟩ := h.reads
  exact ⟨_, .of_spelling l.sign (directiveWord_command h.word) rest idle h.apart reads⟩

theorem Reads.noNewline (h : l.Reads d) : '\n' ∉ l.text := by
  have word : '\n' ∉ l.word.toList := fun mem =>
    absurd ((directiveWord_command h.word).part '\n' mem) (by decide)
  have sign : '\n' ∉ l.sign.text := fun mem => l.sign.not_special _ mem (by decide)
  simp [text, word, sign, h.line]

/-- The tokens of a source of lines are their directives. -/
theorem kinds_tokensOf {ls : List DirectiveLine} {ds : List Directive}
    (h : List.Forall₂ Reads ls ds) :
    (tokensOf (sourceOf ls)).map (·.kind) = ds.map .directive := by
  have reads : List.Forall₂ (fun row l => ∃ text, OneDirective l row.1 text ∧ () = row.2)
      (ds.map fun d => (d, ())) (ls.map DirectiveLine.text) := by
    induction h with
    | nil => exact .nil
    | cons first _ ih =>
      obtain ⟨text, one⟩ := first.oneDirective
      exact .cons ⟨text, one, rfl⟩ ih
  have line : ∀ l ∈ ls.map DirectiveLine.text, '\n' ∉ l := by
    clear reads
    induction h with
    | nil => nofun
    | cons first _ ih => exact List.forall_mem_cons.mpr ⟨first.noNewline, ih⟩
  have tokens := congrArg (List.map Prod.fst) (tokensOf_directives (f := fun _ => ()) reads line)
  simpa [sourceOf, Function.comp_def] using tokens

end DirectiveLine

/-! ### Lines of commands -/

/-- A sign without blanks. -/
def Sign.bare : Sign := ⟨[], [], nofun, nofun⟩

theorem Command.Writes.exists_word {c : Command} {text : List Char} (h : c.Writes text) :
    ∃ word argument, word ∈ commandWords ∧ text = '#' :: (word.toList ++ argument) ∧
      ∀ x ∈ (argument ++ ['\n']).head?, isWord x = false := by
  cases h with
  | @define lead name ending hl apart _ _ =>
    refine ⟨"define", lead ++ (name ++ ending), by decide, by simp, ?_⟩
    rw [List.append_assoc]
    exact head_lead hl apart
  | @defineAs lead name gap c cs hl apart _ _ _ _ =>
    refine ⟨"define", lead ++ (name ++ (gap ++ c :: cs)), by decide, by simp, ?_⟩
    rw [List.append_assoc]
    exact head_lead hl apart
  | @undefine lead name trail hl apart _ _ =>
    refine ⟨"undef", lead ++ (name ++ trail), by decide, by simp, ?_⟩
    rw [List.append_assoc]
    exact head_lead hl apart
  | @opens test word argument h =>
    obtain ⟨hw, front, trail, rfl, -, apart, nonempty, -⟩ := h.reads
    obtain ⟨c, cs, rfl⟩ := List.exists_cons_of_ne_nil nonempty
    exact ⟨"if" ++ word, c :: (cs ++ trail), (directive_if hw "" []).2.2.1, by simp, apart⟩
  | @elseOpens test word argument h =>
    obtain ⟨hw, front, trail, rfl, -, apart, nonempty, -⟩ := h.reads
    obtain ⟨c, cs, rfl⟩ := List.exists_cons_of_ne_nil nonempty
    exact ⟨"elif" ++ word, c :: (cs ++ trail), (directive_if hw "" []).2.2.2, by simp, apart⟩
  | @otherwise trail ht => exact ⟨"else", trail, by decide, by simp, isWord_trail ht []⟩
  | @endif trail ht => exact ⟨"endif", trail, by decide, by simp, isWord_trail ht []⟩

/-- The line of a command is well-formed. -/
theorem Command.Writes.wellFormed {c : Command} {word : String} {argument : List Char}
    (h : c.Writes ('#' :: (word.toList ++ argument))) (hw : word ∈ commandWords)
    (apart : ∀ x ∈ (argument ++ ['\n']).head?, isWord x = false) :
    DirectiveLine.WellFormed ⟨.bare, word, argument⟩ := by
  have named := directiveWord_command hw
  obtain ⟨used, left, d, text, blank, -, reads⟩ := h.readsLine
  have line : '\n' ∉ argument := fun mem => h.line.1 (by simp [mem])
  have cut : word.toList ++ (argument ++ ['\n']) = used ++ left := by simpa using text
  -- the word is read before anything is left of the line
  obtain ⟨front, rfl, rest⟩ : ∃ front, used = word.toList ++ front ∧
      argument ++ ['\n'] = front ++ left := by
    rcases List.append_eq_append_iff.mp cut with ⟨front, longer, rest⟩ | ⟨more, whole, rest⟩
    · exact ⟨front, longer, rest⟩
    · cases more with
      | nil => exact ⟨[], by simpa using whole.symm, by simpa using rest.symm⟩
      | cons x more =>
        have inWord : isWord x = true := named.isWord x (by simp [whole])
        have inLeft : isSpace x = true := blank x (by simp [rest])
        exact absurd inWord (by simp [isWord_of_isSpace inLeft])
  refine ⟨d, hw, line, apart, front, left, rest, isIdle_of_space blank, fun next => ?_⟩
  have head : ∀ x ∈ (front ++ (left ++ next)).head?, isWord x = false := by
    rw [← List.append_assoc, ← rest]
    cases argument with
    | nil =>
      rintro _ ⟨⟩
      decide
    | cons x argument => exact apart
  obtain ⟨sound, reads⟩ := reads next
  have none : ∀ c ∈ ([] : List Char), isLineBlank c = true := nofun
  have read := hash_spaced none named head
  rw [List.nil_append, List.nil_append, ← List.append_assoc word.toList, reads] at read
  obtain ⟨same, others⟩ := Prod.mk.inj read
  exact ⟨sound, Prod.ext (TokenKind.directive.inj same).symm others.symm⟩

theorem Command.Writes.exists_wellFormed {c : Command} {text : List Char} (h : c.Writes text) :
    ∃ l : DirectiveLine, l.text = text ∧ l.WellFormed := by
  obtain ⟨word, argument, hw, rfl, apart⟩ := h.exists_word
  exact ⟨⟨.bare, word, argument⟩, rfl, h.wellFormed hw apart⟩

/-! ## What a line is read as -/

/-- Only a directive that ends a definition is looked at as it is written. -/
theorem directive_congr {word : String} (h : word ∈ commandWords) (other : word ≠ "undef")
    (spelling spelling' : String) (cs : List Char) :
    directive word spelling cs = directive word spelling' cs := by
  simp only [commandWords, List.mem_cons, List.not_mem_nil, or_false, other, false_or] at h
  rcases h with rfl | rfl | rfl | rfl | rfl | rfl | rfl | rfl | rfl <;> rfl

theorem directive_undef (spelling : String) (cs : List Char) :
    directive "undef" spelling cs =
      (.call spelling ((tail cs).value.map String.ofList), (tail cs).rest, (tail cs).sound) := rfl

theorem DirectiveLine.Reads.named {l : DirectiveLine} {d : Directive} (h : l.Reads d) : d.Named := by
  obtain ⟨front, left, -, -, reads⟩ := h.reads
  obtain ⟨_, reads⟩ := reads []
  have named := directive_named l.word l.spelling (front ++ (left ++ []))
  rwa [reads] at named

/-! ## Respelling -/

/-- The text of a comment that ends with its line. -/
structure IsRemark (cs : List Char) : Prop where
  line : '\n' ∉ cs
  noSplice : ¬ ['\\'] <:+ cs ∧ ¬ ['\\', '\r'] <:+ cs
  slashes : slashesClose cs = true

/-- The second line is the first one, which ends a definition, with a comment. -/
def Remarked (l l' : DirectiveLine) : Prop :=
  l.word = "undef" ∧ ∃ lead name trail remark, (∀ c ∈ lead, isGap c = true) ∧ lead ≠ [] ∧
    IsName name ∧ (∀ c ∈ trail, isGap c = true) ∧ IsRemark remark ∧
    l.argument = lead ++ (name ++ trail) ∧
    l'.argument = l.argument ++ ' ' :: '/' :: '/' :: remark

/-- The second line is the first one, perhaps with other blanks before its sign, more blanks after
it, and with a comment if it ends a definition. -/
structure Respelled (l l' : DirectiveLine) : Prop where
  word : l'.word = l.word
  after : l.sign.after.Sublist l'.sign.after
  argument : l'.argument = l.argument ∨ Remarked l l'

/-- The line ends a definition, and has a blank after its sign or a comment now. -/
def loses (row : DirectiveLine × DirectiveLine) : Bool :=
  row.1.word = "undef" && (!row.2.sign.after.isEmpty || row.2.argument ≠ row.1.argument)

theorem slashesClose_append {front : List Char} (h : '/' ∉ front) (rest : List Char) :
    slashesClose (front ++ rest) = slashesClose rest := by
  induction front with
  | nil => rfl
  | cons c front ih =>
    simp only [List.mem_cons, not_or] at h
    rw [List.cons_append, slashesClose.eq_4, ih h.2]
    · exact fun same => absurd same.symm h.1
    · exact fun _ _ same => absurd same.symm h.1

/-- A name with a comment after it is a body. -/
theorem isBody_remarked {c : Char} {cs trail remark : List Char} (h : IsName (c :: cs))
    (ht : ∀ c ∈ trail, isGap c = true) (hr : IsRemark remark) :
    IsBody c (cs ++ trail ++ ' ' :: '/' :: '/' :: remark) := by
  have body := isBody_name h ht
  have inName : '/' ∉ c :: cs := fun mem => absurd (h.continuesWord '/' mem) (by decide)
  have inTrail : '/' ∉ trail := fun mem => absurd (ht '/' mem) (by decide)
  simp only [List.mem_cons, not_or] at inName
  -- a backslash at the end stands behind the slashes
  have behind {ending : List Char} (length : ending.length ≤ 2)
      (other : ∀ x ∈ ending.head?, x ≠ '/') (nonempty : ending ≠ [])
      (s : ending <:+ c :: (cs ++ trail ++ ' ' :: '/' :: '/' :: remark)) : ending <:+ remark := by
    have slashes : '/' :: '/' :: remark <:+ c :: (cs ++ trail ++ ' ' :: '/' :: '/' :: remark) :=
      ⟨c :: (cs ++ trail ++ [' ']), by simp⟩
    have own := List.suffix_of_suffix_length_le s slashes (by simp only [List.length_cons]; omega)
    rcases List.suffix_cons_iff.mp own with rfl | own
    · exact absurd rfl (other '/' rfl)
    · rcases List.suffix_cons_iff.mp own with rfl | own
      · exact absurd rfl (other '/' rfl)
      · exact own
  exact {
    start := body.start
    line := by
      have line := body.line
      simp only [List.mem_append, not_or] at line
      simp [line, hr.line]
    noComment := fun same => absurd same.symm inName.1
    noSplice := ⟨fun s => hr.noSplice.1 (behind (by simp) (by simp) (by simp) s),
      fun s => hr.noSplice.2 (behind (by simp) (by simp) (by simp) s)⟩
    slashes := by
      rw [slashesClose_append (by simp [inName.2, inTrail]), slashesClose.eq_4 _ _ (by simp) (by simp)]
      exact hr.slashes }

/-! ### Rows -/

theorem spelling_ne {l : DirectiveLine} (h : l.sign.after ≠ []) (word : l.word = "undef") :
    l.spelling ≠ "#undef" := by
  intro same
  have length := congrArg (fun s => s.toList.length) same
  simp [DirectiveLine.spelling, word, h] at length

section Row

variable {l l' : DirectiveLine} {d : Directive}

theorem Respelled.reads_other (h : Respelled l l') (own : l.Reads d) (other : l.word ≠ "undef") :
    l'.Reads d := by
  have argument : l'.argument = l.argument := h.argument.resolve_right fun r => other r.1
  obtain ⟨front, left, rest, idle, reads⟩ := own.reads
  refine ⟨h.word ▸ own.word, argument ▸ own.line, argument ▸ own.apart, front, left,
    argument ▸ rest, idle, fun next => ?_⟩
  obtain ⟨sound, reads⟩ := reads next
  refine ⟨sound, ?_⟩
  rw [h.word, directive_congr own.word other l'.spelling l.spelling, reads]

/-- A line that ends a definition is read as it is spelled. -/
theorem Respelled.reads_undef (h : Respelled l l') (own : l.Reads d) (undef : l.word = "undef")
    (argument : l'.argument = l.argument) :
    ∃ name, d = .call l.spelling name ∧ l'.Reads (.call l'.spelling name) := by
  obtain ⟨front, left, rest, idle, reads⟩ := own.reads
  rw [undef] at reads
  have first := reads []
  simp only [directive_undef, Prod.mk.injEq] at first reads
  obtain ⟨_, rfl, -, -⟩ := first
  refine ⟨_, rfl, h.word ▸ own.word, argument ▸ own.line, argument ▸ own.apart, front, left,
    argument ▸ rest, idle, fun next => ?_⟩
  obtain ⟨sound, same, after, ends⟩ := reads next
  refine ⟨sound, ?_⟩
  rw [h.word, undef, directive_undef, after, ends, (Directive.call.inj same).2]

/-- With a comment the line ends no definition. -/
theorem Remarked.reads (h : Remarked l l') (word : l'.word = l.word) :
    ∃ d, l'.Reads d ∧ d.Idle := by
  obtain ⟨undef, lead, name, trail, remark, hl, apart, hn, ht, hr, own, text⟩ := h
  obtain ⟨c, cs, rfl⟩ := hn.exists_cons
  have body := isBody_remarked hn ht hr
  have argument : l'.argument = lead ++ c :: (cs ++ trail ++ ' ' :: '/' :: '/' :: remark) := by
    simp [text, own]
  refine ⟨.call l'.spelling
    (some (String.ofList (c :: (cs ++ trail ++ ' ' :: '/' :: '/' :: remark)))), ?_, ?_⟩
  · refine ⟨by rw [word, undef]; decide, ?_, ?_, l'.argument ++ ['\n'], [],
      (List.append_nil _).symm, isIdle_of_space nofun, fun next => ⟨true, ?_⟩⟩
    · rw [argument, List.mem_append, not_or]
      exact ⟨not_mem_gap hl, body.noNewline⟩
    · rw [argument, List.append_assoc]
      exact head_lead hl apart
    · have read := tail_body hl apart body next
      have whole : l'.argument ++ ['\n'] ++ ([] ++ next) =
          lead ++ (c :: (cs ++ trail ++ ' ' :: '/' :: '/' :: remark) ++ '\n' :: next) := by
        simp [argument]
      rw [word, undef, directive_undef, whole, read]
      rfl
  · by_cases spelled : l'.spelling = "#undef"
    · rw [spelled]
      refine .unnamed fun word => ?_
      have slash : '/' ∈ trim (c :: (cs ++ trail ++ ' ' :: '/' :: '/' :: remark)) :=
        mem_trim (by simp) (by decide)
      rw [String.toList_ofList] at word
      exact absurd (word.continuesWord '/' slash) (by decide)
    · exact .respelled spelled _

theorem Remarked.argument_ne (h : Remarked l l') : l'.argument ≠ l.argument := by
  obtain ⟨-, lead, name, trail, remark, -, -, -, -, -, -, text⟩ := h
  simp [text]

/-- A line that is respelled is read as before, but for a line that ends a definition. -/
theorem Respelled.reads (h : Respelled l l') (own : l.Reads d) :
    ∃ d', l'.Reads d' ∧ (loses (l, l') = true → d'.Idle) ∧ (loses (l, l') = false → d' = d) := by
  by_cases undef : l.word = "undef"
  · rcases h.argument with argument | remarked
    · obtain ⟨name, rfl, reads⟩ := h.reads_undef own undef argument
      refine ⟨_, reads, fun lost => ?_, fun kept => ?_⟩
      · have blank : l'.sign.after ≠ [] := by simpa [loses, undef, argument] using lost
        exact .respelled (spelling_ne blank (h.word.trans undef)) name
      · have bare : l'.sign.after = [] := by simpa [loses, undef, argument] using kept
        have before : l.sign.after = [] := List.sublist_nil.mp (bare ▸ h.after)
        rw [DirectiveLine.spelling, DirectiveLine.spelling, bare, before, h.word]
    · obtain ⟨d', reads, idle⟩ := remarked.reads h.word
      exact ⟨d', reads, fun _ => idle,
        fun kept => absurd kept (by simp [loses, undef, remarked.argument_ne])⟩
  · refine ⟨d, h.reads_other own undef, fun lost => absurd lost ?_, fun _ => rfl⟩
    simp [loses, undef]

end Row

/-! ## Sources -/

section Rows

variable {rows : List (DirectiveLine × DirectiveLine)}

/-- The lines that are read as before. -/
def kept (rows : List (DirectiveLine × DirectiveLine)) : List DirectiveLine :=
  (rows.filter fun row => !loses row).map (·.1)

theorem kept_eq_self (h : ∀ row ∈ rows, loses row = false) : kept rows = rows.map (·.1) := by
  rw [kept, List.filter_eq_self.mpr fun row mem => by simp [h row mem]]

theorem exists_thinned (h : ∀ row ∈ rows, row.1.WellFormed ∧ Respelled row.1 row.2) :
    ∃ ds ds', List.Forall₂ DirectiveLine.Reads (rows.map (·.2)) ds ∧
      List.Forall₂ DirectiveLine.Reads (kept rows) ds' ∧ Directive.Thinned ds ds' := by
  induction rows with
  | nil => exact ⟨[], [], .nil, .nil, .nil⟩
  | cons row rows ih =>
    obtain ⟨⟨⟨d, own⟩, respelled⟩, h⟩ := List.forall_mem_cons.mp h
    obtain ⟨d', reads, idle, same⟩ := respelled.reads own
    obtain ⟨ds, ds', all, others, thinned⟩ := ih h
    cases lost : loses row with
    | true =>
      refine ⟨d' :: ds, ds', .cons reads all, ?_, .drop (idle lost) thinned⟩
      simpa [kept, lost] using others
    | false =>
      obtain rfl := same lost
      refine ⟨d' :: ds, d' :: ds', .cons reads all, ?_, .keep own.named thinned⟩
      simpa [kept, lost] using And.intro own others

/-- The macros found have the same names and bodies, in the same order, and the same macros are
defined afterwards. -/
structure SameMacros (a b : Declarations × Environment) : Prop where
  found : a.1.macros.map (fun m => (m.name, m.body)) = b.1.macros.map fun m => (m.name, m.body)
  defined : a.2 = b.2

theorem sameMacros_of_thinned {env : Environment} (named : env.Named) (file : String)
    {source source' : String} {ds ds' : List Directive} (h : Directive.Thinned ds ds')
    (kinds : (tokensOf source).map (·.kind) = ds.map .directive)
    (kinds' : (tokensOf source').map (·.kind) = ds'.map .directive) :
    SameMacros (declarations env file source) (declarations env file source') := by
  have start : Reading.Alike { environment := env } { environment := env } := ⟨rfl, rfl, named⟩
  have alike : Reading.Alike (Reading.ofParts file env (parts (Blocks.ofTokens (tokensOf source))))
      (Reading.ofParts file env (parts (Blocks.ofTokens (tokensOf source')))) :=
    readBlocks_thinned (Blocks.ofTokens_thinned h kinds kinds') start
  refine ⟨?_, alike.environment⟩
  have found := congrArg List.reverse alike.macros
  rwa [← List.map_reverse, ← List.map_reverse] at found

end Rows

/-! ### A definition and its end -/

/-- A sign with a blank after it. -/
def Sign.spaced : Sign := ⟨[], [' '], nofun, List.forall_mem_singleton.mpr rfl⟩

/-- The line `#define A 1`. -/
def defineLine : DirectiveLine := ⟨.bare, "define", [' ', 'A', ' ', '1']⟩

/-- The line `#undef A`. -/
def undefLine : DirectiveLine := ⟨.bare, "undef", [' ', 'A']⟩

/-- The line `#undef A // c`. -/
def remarkedUndef : DirectiveLine := ⟨.bare, "undef", [' ', 'A', ' ', '/', '/', ' ', 'c']⟩

theorem wellFormed_defineLine : defineLine.WellFormed :=
  (writes_define (n := 'A') (c := '1') (by decide) (by decide)).wellFormed (by decide) <| by
    rintro _ ⟨⟩
    decide

theorem wellFormed_undefLine : undefLine.WellFormed :=
  (writes_undefine (n := 'A') (by decide)).wellFormed (by decide) <| by
    rintro _ ⟨⟩
    decide

theorem respelled_spaced (word : String) (argument : List Char) :
    Respelled ⟨.bare, word, argument⟩ ⟨.spaced, word, argument⟩ :=
  ⟨rfl, List.nil_sublist _, .inl rfl⟩

theorem respelled_remarked : Respelled undefLine remarkedUndef := by
  have remark : IsRemark [' ', 'c'] := ⟨by decide, by decide, by decide⟩
  exact ⟨rfl, .refl _, .inr ⟨rfl, [' '], ['A'], [], [' ', 'c'], isGap_blank, by decide,
    isName_letter (by decide), nofun, remark, rfl, rfl⟩⟩

/-- A definition and its end, and the same with a blank after both signs. -/
def allSpaced : List (DirectiveLine × DirectiveLine) :=
  [(defineLine, { defineLine with sign := .spaced }),
    (undefLine, { undefLine with sign := .spaced })]

/-- A definition and its end, and the same with a blank after the first sign. -/
def firstSpaced : List (DirectiveLine × DirectiveLine) :=
  [(defineLine, { defineLine with sign := .spaced }), (undefLine, undefLine)]

/-- Lines that are respelled do not change what a source of well-formed lines defines, but for those
that end a definition: the source is read as if these were left out. -/
theorem declarations_respelled {env : Environment} (named : env.Named) (file : String)
    {rows : List (DirectiveLine × DirectiveLine)}
    (h : ∀ row ∈ rows, row.1.WellFormed ∧ Respelled row.1 row.2) :
    SameMacros (declarations env file (sourceOf (rows.map (·.2))))
        (declarations env file (sourceOf (kept rows))) ∧
      ((∀ row ∈ rows, loses row = false) →
        SameMacros (declarations env file (sourceOf (rows.map (·.2))))
          (declarations env file (sourceOf (rows.map (·.1))))) := by
  obtain ⟨ds, ds', reads, reads', thinned⟩ := exists_thinned h
  have same := sameMacros_of_thinned named file thinned (DirectiveLine.kinds_tokensOf reads)
    (DirectiveLine.kinds_tokensOf reads')
  refine ⟨same, fun all => ?_⟩
  rwa [kept_eq_self all] at same

theorem declarations_respelled_spaced :
    Environment.Named [] ∧ (∀ row ∈ allSpaced, row.1.WellFormed ∧ Respelled row.1 row.2) ∧
      SameMacros (declarations [] "test.h" (sourceOf (allSpaced.map (·.2))))
        (declarations [] "test.h" (sourceOf [defineLine])) ∧
      (∀ row ∈ firstSpaced, row.1.WellFormed ∧ Respelled row.1 row.2) ∧
      (∀ row ∈ firstSpaced, loses row = false) ∧
      SameMacros (declarations [] "test.h" (sourceOf (firstSpaced.map (·.2))))
        (declarations [] "test.h" (sourceOf [defineLine, undefLine])) := by
  have all : ∀ row ∈ allSpaced, row.1.WellFormed ∧ Respelled row.1 row.2 :=
    List.forall_mem_cons.mpr ⟨⟨wellFormed_defineLine, respelled_spaced _ _⟩,
      List.forall_mem_singleton.mpr ⟨wellFormed_undefLine, respelled_spaced _ _⟩⟩
  have first : ∀ row ∈ firstSpaced, row.1.WellFormed ∧ Respelled row.1 row.2 :=
    List.forall_mem_cons.mpr ⟨⟨wellFormed_defineLine, respelled_spaced _ _⟩,
      List.forall_mem_singleton.mpr ⟨wellFormed_undefLine, rfl, .refl _, .inl rfl⟩⟩
  have kept : ∀ row ∈ firstSpaced, loses row = false :=
    List.forall_mem_cons.mpr ⟨rfl, List.forall_mem_singleton.mpr rfl⟩
  exact ⟨Environment.named_nil, all,
    (declarations_respelled Environment.named_nil "test.h" all).1, first, kept,
    (declarations_respelled Environment.named_nil "test.h" first).2 kept⟩

/-- A definition goes on after its end, if a blank stands after the sign there or a comment at the
end of the line. -/
theorem declarations_respelled_ne :
    (undefLine.WellFormed ∧ Respelled undefLine { undefLine with sign := .spaced } ∧
      Respelled undefLine remarkedUndef) ∧
    (declarations [] "test.h" (sourceOf [defineLine, undefLine])).2 = [] ∧
    (declarations [] "test.h"
      (sourceOf [defineLine, { undefLine with sign := .spaced }])).2 = [("A", "1")] ∧
    (declarations [] "test.h" (sourceOf [defineLine, remarkedUndef])).2 = [("A", "1")] := by
  have body : Body.clean "1" = "1" := by cbv
  have ended : parts (Blocks.ofTokens (tokensOf (sourceOf [defineLine, undefLine]))) =
      .content (.definition "A" (some "1") ⟨1, 0⟩) (.content (.removal "A") .done) := rfl
  have spaced : parts (Blocks.ofTokens
      (tokensOf (sourceOf [defineLine, { undefLine with sign := .spaced }]))) =
      .content (.definition "A" (some "1") ⟨1, 0⟩) .done := rfl
  have remarked : parts (Blocks.ofTokens (tokensOf (sourceOf [defineLine, remarkedUndef]))) =
      .content (.definition "A" (some "1") ⟨1, 0⟩) (.content (.removal "A // c") .done) := rfl
  refine ⟨⟨wellFormed_undefLine, respelled_spaced _ _, respelled_remarked⟩, ?_, ?_, ?_⟩
  · simp [declarations, ended, Reading.ofParts, Blocks.run, Reading.step, body,
      Environment.insert, Environment.erase]
  · simp [declarations, spaced, Reading.ofParts, Blocks.run, Reading.step, body,
      Environment.insert, Environment.erase]
  · simp [declarations, remarked, Reading.ofParts, Blocks.run, Reading.step, body,
      Environment.insert, Environment.erase]

end ConstLookup.Source
