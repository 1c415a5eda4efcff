import ConstLookup.Proofs.Source.LineTokens
import ConstLookup.Proofs.Text.Identifier
import ConstLookup.Proofs.Text.Lines
import ConstLookup.Source.Extract

/-!
  Lines that hold a directive each. `Command.Writes` says how the line of a command may be
  written; the lexer reads such a line as the directive of its command and leaves nothing but
  blanks of it (`Command.Writes.readsLine`). The lines need no more than what the lexer asks for:
  the body of a macro must not begin with a comment or end in a backslash, and its slashes must not
  take the line end along.
-/

namespace ConstLookup.Source

open ConstLookup.Text ConstLookup.Source.Lexer

/-! ## Commands and their lines -/

/-- What one line asks of the preprocessor. -/
inductive Command where
  /-- Define a macro, perhaps with a body as it stands in the text. -/
  | define (name : String) (body : Option String)
  /-- End a definition. -/
  | undefine (name : String)
  /-- Start a chain of branches. -/
  | opens (test : Test)
  /-- Start a further branch with its own test. -/
  | elseOpens (test : Test)
  /-- Start the last branch. -/
  | otherwise
  /-- End a chain. -/
  | endif
  deriving DecidableEq, Repr

/-- Slashes take the character after them along; none takes a star or what stands after the
text. -/
def slashesClose : List Char → Bool
  | [] => true
  | ['/'] => false
  | '/' :: c :: cs => c ≠ '*' && slashesClose cs
  | _ :: cs => slashesClose cs

/-- A text that is a body of a macro up to the end of its line. -/
structure IsBody (c : Char) (cs : List Char) : Prop where
  start : isSpace c = false
  line : '\n' ∉ cs
  noComment : c = '/' → ∀ d ∈ cs.head?, d ≠ '/' ∧ d ≠ '*'
  noSplice : ¬ ['\\'] <:+ c :: cs ∧ ¬ ['\\', '\r'] <:+ c :: cs
  slashes : slashesClose cs = true

/-- What stands after `if` or `el` and `if` to ask for a test: the end of the word and the rest
of the line. -/
inductive Test.Asks : Test → String → List Char → Prop where
  | condition {lead text trail : List Char} (hl : ∀ c ∈ lead, isGap c = true)
      (h : IsCondition text) (apart : ∀ c ∈ (lead ++ text).head?, isWord c = false)
      (ht : ∀ c ∈ trail, isGap c = true) :
      Asks (.condition (some (String.ofList text))) "" (lead ++ (text ++ trail))
  | defined {lead name trail : List Char} (hl : ∀ c ∈ lead, isGap c = true) (apart : lead ≠ [])
      (h : IsName name) (ht : ∀ c ∈ trail, isGap c = true) :
      Asks (.defined (some (String.ofList name))) "def" (lead ++ (name ++ trail))
  | undefined {lead name trail : List Char} (hl : ∀ c ∈ lead, isGap c = true) (apart : lead ≠ [])
      (h : IsName name) (ht : ∀ c ∈ trail, isGap c = true) :
      Asks (.undefined (some (String.ofList name))) "ndef" (lead ++ (name ++ trail))

/-- How the line of a command may be written, without its line feed. A definition without a body
ends with its name, but for a carriage return. -/
inductive Command.Writes : Command → List Char → Prop where
  | define {lead name ending : List Char} (hl : ∀ c ∈ lead, isGap c = true) (apart : lead ≠ [])
      (h : IsName name) (he : ending = [] ∨ ending = ['\r']) :
      Writes (.define (String.ofList name) none) ("#define".toList ++ (lead ++ (name ++ ending)))
  | defineAs {lead name gap : List Char} {c : Char} {cs : List Char}
      (hl : ∀ c ∈ lead, isGap c = true) (apart : lead ≠ []) (h : IsName name)
      (hg : ∀ c ∈ gap, isGap c = true) (apart' : gap ≠ []) (hb : IsBody c cs) :
      Writes (.define (String.ofList name) (some (String.ofList (c :: cs))))
        ("#define".toList ++ (lead ++ (name ++ (gap ++ c :: cs))))
  | undefine {lead name trail : List Char} (hl : ∀ c ∈ lead, isGap c = true) (apart : lead ≠ [])
      (h : IsName name) (ht : ∀ c ∈ trail, isGap c = true) :
      Writes (.undefine (String.ofList name)) ("#undef".toList ++ (lead ++ (name ++ trail)))
  | opens {test : Test} {word : String} {argument : List Char} (h : test.Asks word argument) :
      Writes (.opens test) ("#if".toList ++ (word.toList ++ argument))
  | elseOpens {test : Test} {word : String} {argument : List Char} (h : test.Asks word argument) :
      Writes (.elseOpens test) ("#elif".toList ++ (word.toList ++ argument))
  | otherwise {trail : List Char} (ht : ∀ c ∈ trail, isGap c = true) :
      Writes .otherwise ("#else".toList ++ trail)
  | endif {trail : List Char} (ht : ∀ c ∈ trail, isGap c = true) :
      Writes .endif ("#endif".toList ++ trail)

/-- The directive asks for the command. -/
inductive Directive.Gives : Directive → Command → Prop where
  | define (name : String) (body : Option String) : Gives (.define name body) (.define name body)
  | undefine {argument name : String} (h : trim argument.toList = name.toList) :
      Gives (.call "#undef" (some argument)) (.undefine name)
  | opens (test : Test) : Gives (.opens test) (.opens test)
  | elseOpens (test : Test) : Gives (.elseOpens test) (.elseOpens test)
  | otherwise : Gives .otherwise .otherwise
  | endif : Gives .endif .endif

/-! ## Arguments -/

theorem nextWord?_eq {lead name rest : List Char} (hl : ∀ c ∈ lead, isGap c = true)
    (h : IsName name) (hr : ∀ c ∈ rest.head?, isSpace c = true) :
    nextWord? (lead ++ (name ++ rest)) = some (String.ofList name, rest) := by
  cases name with
  | nil => exact h.elim
  | cons c cs =>
    have proper : (Atom.name (c :: cs)).Proper := h
    have solid : Solid (c :: cs ++ rest) :=
      solid_atom proper fun d hd => Atom.continues_space proper (hr d hd)
    have none : ∀ d ∈ spaces, continuesWord d = false :=
      List.all_iff_forall_prop.mp (by decide)
    have word : (cs ++ rest).dropWhile continuesWord = rest :=
      dropWhile_run h.2 fun d hd => none d (mem_spaces (hr d hd))
    rw [nextWord?, afterLineGap_append hl solid (by simp only [List.length_append]; omega)]
    dsimp only [List.cons_append]
    rw [if_pos h.1, word, consumed_append]

theorem nameTest_eq (test : Option String → Test) {lead name rest : List Char}
    (hl : ∀ c ∈ lead, isGap c = true) (h : IsName name)
    (hr : ∀ c ∈ rest.head?, isSpace c = true) :
    nameTest test (lead ++ (name ++ rest)) = (test (some (String.ofList name)), rest, true) := by
  rw [nameTest, nextWord?_eq hl h hr]

theorem afterNewline?_eq_none {c : Char} {cs : List Char} (hc : c ≠ '\n')
    (hcs : ∀ d ∈ cs.head?, d ≠ '\n') : afterNewline? (c :: cs) = none := by
  unfold afterNewline?
  split
  next same => exact absurd (List.cons.inj same).1 hc
  next more same =>
    rw [(List.cons.inj same).2] at hcs
    exact absurd rfl (hcs '\n' rfl)
  next => rfl

theorem afterSpace_append {gap : List Char} (hg : ∀ c ∈ gap, isSpace c = true) (rest : List Char) :
    afterSpace (gap ++ rest) = afterSpace rest := by
  induction gap with
  | nil => rfl
  | cons c gap ih =>
    obtain ⟨space, hg⟩ := List.forall_mem_cons.mp hg
    rw [List.cons_append, afterSpace.eq_def]
    split
    next same => cases same
    next same =>
      obtain rfl := (List.cons.inj same).1
      exact absurd space (by decide)
    next same =>
      obtain rfl := (List.cons.inj same).1
      exact absurd space (by decide)
    next same =>
      obtain ⟨rfl, rfl⟩ := List.cons.inj same
      rw [if_pos space, ih hg]

/-- No line end of a text is continued that has neither a line end nor a backslash at its end. -/
theorem not_splice {cs : List Char} (line : '\n' ∉ cs)
    (noSplice : ¬ ['\\'] <:+ cs ∧ ¬ ['\\', '\r'] <:+ cs) (next more : List Char) :
    cs ++ '\n' :: next ≠ '\\' :: '\n' :: more ∧ cs ++ '\n' :: next ≠ '\\' :: '\r' :: '\n' :: more := by
  match cs with
  | [] => simp
  | [a] =>
    refine ⟨fun same => ?_, by simp⟩
    obtain ⟨rfl, -⟩ := List.cons.inj same
    exact noSplice.1 List.suffix_rfl
  | [a, b] =>
    refine ⟨fun same => ?_, fun same => ?_⟩
    · obtain ⟨-, rfl, -⟩ : a = '\\' ∧ b = '\n' ∧ _ := by simpa using same
      simp at line
    · obtain ⟨rfl, rfl, -⟩ : a = '\\' ∧ b = '\r' ∧ _ := by simpa using same
      exact noSplice.2 List.suffix_rfl
  | a :: b :: d :: cs =>
    refine ⟨fun same => ?_, fun same => ?_⟩
    · obtain ⟨-, rfl, -⟩ : a = '\\' ∧ b = '\n' ∧ _ := by simpa using same
      simp at line
    · obtain ⟨-, -, rfl, -⟩ : a = '\\' ∧ b = '\r' ∧ d = '\n' ∧ _ := by simpa using same
      simp at line

theorem IsBody.noNewline {c : Char} {cs : List Char} (h : IsBody c cs) : '\n' ∉ c :: cs := by
  rintro mem
  rcases List.mem_cons.mp mem with rfl | mem
  · exact absurd h.start (by decide)
  · exact h.line mem

/-- What begins a body is no blank and no continued line end. -/
theorem afterSpace_body {c : Char} {cs : List Char} (h : IsBody c cs) (next : List Char) :
    afterSpace (c :: cs ++ '\n' :: next) = c :: cs ++ '\n' :: next := by
  have plain := not_splice h.noNewline h.noSplice next
  rw [afterSpace.eq_def]
  split
  next same => cases same
  next more same => exact absurd same (plain more).2
  next more same => exact absurd same (plain more).1
  next same =>
    obtain ⟨rfl, rfl⟩ := List.cons.inj same
    rw [if_neg (by simp [h.start])]
    rfl

/-- An argument goes on to the line end when no slash takes it along. -/
theorem afterArgument_append {cs : List Char} (line : '\n' ∉ cs)
    (noSplice : ¬ ['\\'] <:+ cs ∧ ¬ ['\\', '\r'] <:+ cs) (slashes : slashesClose cs = true)
    (next : List Char) : afterArgument (cs ++ '\n' :: next) = '\n' :: next := by
  have shorter : ∀ {c : Char} {cs : List Char}, (¬ ['\\'] <:+ c :: cs ∧ ¬ ['\\', '\r'] <:+ c :: cs) →
      ¬ ['\\'] <:+ cs ∧ ¬ ['\\', '\r'] <:+ cs := fun h =>
    ⟨fun s => h.1 (s.trans (List.suffix_cons _ _)), fun s => h.2 (s.trans (List.suffix_cons _ _))⟩
  fun_induction slashesClose cs with
  | case1 => rfl
  | case2 => cases slashes
  | case3 c cs ih =>
    simp only [List.mem_cons, not_or] at line
    rw [Bool.and_eq_true, decide_eq_true_iff] at slashes
    rw [List.cons_append, List.cons_append, afterArgument.eq_4 c _ slashes.1]
    exact ih line.2.2 (shorter (shorter noSplice)) slashes.2
  | case4 c cs noEnd noPair ih =>
    have plain := not_splice line noSplice next
    simp only [List.mem_cons, not_or] at line
    have noSlash : c ≠ '/' := by
      rintro rfl
      cases cs with
      | nil => exact noEnd rfl rfl
      | cons d cs => exact noPair d cs rfl rfl
    have step : afterArgument (c :: (cs ++ '\n' :: next)) = afterArgument (cs ++ '\n' :: next) := by
      refine afterArgument.eq_8 c _ (fun _ h _ => noSlash h) (fun h _ => noSlash h)
        (fun _ _ h _ => noSlash h) ?_ ?_ fun h => line.1 h.symm
      · rintro more rfl same
        exact (plain more).2 (congrArg (List.cons '\\') same)
      · rintro more rfl same
        exact (plain more).1 (congrArg (List.cons '\\') same)
    rw [List.cons_append, step]
    exact ih line.2 (shorter noSplice) slashes

theorem IsBody.afterComment? {c : Char} {cs : List Char} (h : IsBody c cs) (next : List Char) :
    Lexer.afterComment? (c :: cs ++ '\n' :: next) = none := by
  by_cases slash : c = '/'
  · have other := h.noComment slash
    subst slash
    unfold Lexer.afterComment?
    cases cs with
    | nil => rfl
    | cons d cs =>
      split
      next same => exact absurd (List.cons.inj (List.cons.inj same).2).1 (other d rfl).1
      next same => exact absurd (List.cons.inj (List.cons.inj same).2).1 (other d rfl).2
      next => rfl
  · exact afterComment?_eq_none _ slash

/-! ## Ends of directives -/

/-- A directive whose line ends at once has no argument. -/
theorem tail_newline {ending : List Char} (h : ending = [] ∨ ending = ['\r']) (next : List Char) :
    tail (ending ++ '\n' :: next) = { value := none, rest := next, sound := true } := by
  rcases h with rfl | rfl <;> rfl

theorem endOfDirective_newline (value : Option (List Char)) {steps : Nat} (h : steps ≠ 0)
    (next : List Char) :
    endOfDirective value steps ('\n' :: next) = { value := value, rest := next, sound := true } := by
  obtain ⟨steps, rfl⟩ := Nat.exists_eq_succ_of_ne_zero h
  rfl

/-- A body that stands after blanks is the argument of a directive. -/
theorem tail_body {gap : List Char} {c : Char} {cs : List Char} (hg : ∀ d ∈ gap, isGap d = true)
    (apart : gap ≠ []) (h : IsBody c cs) (next : List Char) :
    tail (gap ++ (c :: cs ++ '\n' :: next)) =
      { value := some (c :: cs), rest := next, sound := true } := by
  have start : afterNewline? (gap ++ (c :: cs ++ '\n' :: next)) = none := by
    have noLine : c ≠ '\n' := by
      rintro rfl
      exact absurd h.start (by decide)
    obtain ⟨d, gap, rfl⟩ := List.exists_cons_of_ne_nil apart
    obtain ⟨first, hg⟩ := List.forall_mem_cons.mp hg
    refine afterNewline?_eq_none (isGap_iff.mp first).2 ?_
    cases gap with
    | nil => rintro _ ⟨⟩; exact noLine
    | cons d gap => rintro _ ⟨⟩; exact (isGap_iff.mp (hg d List.mem_cons_self)).2
  have space : afterSpace (gap ++ (c :: cs ++ '\n' :: next)) = c :: cs ++ '\n' :: next := by
    rw [afterSpace_append (fun d hd => (isGap_iff.mp (hg d hd)).1), afterSpace_body h]
  have argument : afterArgument (cs ++ '\n' :: next) = '\n' :: next := by
    refine afterArgument_append h.line ?_ h.slashes next
    exact ⟨fun s => h.noSplice.1 (s.trans (List.suffix_cons _ _)),
      fun s => h.noSplice.2 (s.trans (List.suffix_cons _ _))⟩
  rw [tail, tailFrom, start]
  dsimp only
  rw [space, h.afterComment?]
  dsimp only [List.cons_append]
  rw [argument, consumed_append]
  exact endOfDirective_newline _ (by simp [apart]) next

/-- A text without slashes and backslashes is a body. -/
theorem isBody_of_plain {c : Char} {cs : List Char} (start : isSpace c = false)
    (h : ∀ d ∈ c :: cs, d ∉ ['\n', '/', '\\']) : IsBody c cs := by
  have plain : ∀ d ∈ cs, d ≠ '/' := fun d hd => by
    rintro rfl
    exact h '/' (List.mem_cons_of_mem _ hd) (by decide)
  refine ⟨start, fun mem => h '\n' (List.mem_cons_of_mem _ mem) (by decide), ?_, ⟨?_, ?_⟩, ?_⟩
  · rintro rfl
    exact absurd (by decide) (h '/' List.mem_cons_self)
  · exact fun s => h '\\' (s.subset (by simp)) (by decide)
  · exact fun s => h '\\' (s.subset (by simp)) (by decide)
  · clear h start
    fun_induction slashesClose cs with
    | case1 => rfl
    | case2 => exact absurd rfl (plain '/' (by simp))
    | case3 => exact absurd rfl (plain '/' (by simp))
    | case4 c cs _ _ ih => exact ih fun d hd => plain d (List.mem_cons_of_mem _ hd)

/-- What may stand after a sign as the word of a directive. -/
structure DirectiveWord (word : String) : Prop where
  begins : word.toList.head?.any (· ≠ '_') = true
  part : ∀ c ∈ word.toList, isIdentPart c = true

section DirectiveWord

variable {word : String}

theorem DirectiveWord.of_mem {words : List String} (h : word ∈ words)
    (all : ∀ w ∈ words, (w.toList.head?.any (· ≠ '_') && w.toList.all isIdentPart) = true) :
    DirectiveWord word where
  begins := (Bool.and_eq_true_iff.mp (all word h)).1
  part := List.all_eq_true.mp (Bool.and_eq_true_iff.mp (all word h)).2

theorem DirectiveWord.ne_nil (h : DirectiveWord word) : word.toList ≠ [] := by
  intro empty
  have begins := h.begins
  rw [empty] at begins
  cases begins

theorem DirectiveWord.isWord (h : DirectiveWord word) : ∀ c ∈ word.toList, isWord c = true :=
  fun c hc => isWord_of_part (h.part c hc)

theorem DirectiveWord.not_blank (h : DirectiveWord word) :
    ∀ c ∈ word.toList, isLineBlank c = false := by
  intro c hc
  have none : ∀ d ∈ [' ', '\t'], isIdentPart d = false :=
    List.all_iff_forall_prop.mp (by decide)
  refine Bool.eq_false_iff.mpr fun blank => ?_
  rw [isLineBlank, Bool.or_eq_true, decide_eq_true_eq, decide_eq_true_eq] at blank
  exact absurd (h.part c hc) (by simp [none c (by simpa using blank)])

end DirectiveWord

/-- The word of a directive decides how the rest is read, whatever blanks stand before it. -/
theorem hash_spaced {blanks : List Char} (hb : ∀ c ∈ blanks, isLineBlank c = true) {word : String}
    (hw : DirectiveWord word) {rest : List Char} (hr : ∀ c ∈ rest.head?, isWord c = false) :
    let d := directive word (String.ofList ('#' :: (blanks ++ word.toList))) rest
    Lexer.hash (blanks ++ (word.toList ++ rest)) = (.directive d.1, d.2) := by
  intro d
  obtain ⟨c, cs, text⟩ := List.exists_cons_of_ne_nil hw.ne_nil
  have start : (blanks ++ (word.toList ++ rest)).dropWhile (fun c => c = ' ' || c = '\t') =
      word.toList ++ rest := by
    refine dropWhile_run hb ?_
    rw [text]
    rintro _ ⟨⟩
    exact hw.not_blank c (by rw [text]; exact List.mem_cons_self)
  have ends : ∀ c ∈ rest.head?, isIdentPart c = false := fun c hc =>
    Bool.eq_false_iff.mpr fun part => absurd (isWord_of_part part) (by simp [hr c hc])
  have rest' : (word.toList ++ rest).dropWhile isIdentPart = rest := dropWhile_run hw.part ends
  have named : ¬ (word.toList.isEmpty || word.toList.head? = some '_') = true := by
    have begins := hw.begins
    rw [text] at begins ⊢
    simpa using begins
  have before : consumed (blanks ++ (word.toList ++ rest)) rest = blanks ++ word.toList := by
    rw [← List.append_assoc, consumed_append]
  rw [Lexer.hash]
  dsimp only
  rw [start, rest', consumed_append, before, if_neg named, String.ofList_toList]

/-- The word of a directive decides how the rest is read. -/
theorem hash_word {word : String} (hw : DirectiveWord word) {rest : List Char}
    (hr : ∀ c ∈ rest.head?, isWord c = false) :
    Lexer.hash (word.toList ++ rest) =
      (.directive (directive word ("#" ++ word) rest).1, (directive word ("#" ++ word) rest).2) := by
  have none : ∀ c ∈ ([] : List Char), isLineBlank c = true := nofun
  have spelling : String.ofList ('#' :: word.toList) = "#" ++ word := by
    rw [← String.toList_inj]
    simp
  have read := hash_spaced none hw hr
  rwa [List.nil_append, List.nil_append, spelling] at read

/-- No word goes on with a blank. -/
theorem isWord_of_isSpace {c : Char} (h : isSpace c = true) : isWord c = false := by
  have none : ∀ d ∈ spaces, isWord d = false := List.all_iff_forall_prop.mp (by decide)
  exact none c (mem_spaces h)

theorem head_lead {lead rest : List Char} (hl : ∀ c ∈ lead, isGap c = true) (apart : lead ≠ []) :
    ∀ c ∈ (lead ++ rest).head?, isWord c = false := by
  obtain ⟨c, cs, rfl⟩ := List.exists_cons_of_ne_nil apart
  rintro _ ⟨⟩
  exact isWord_of_isSpace (isGap_iff.mp (hl c List.mem_cons_self)).1

/-! ## Names and blanks -/

section Names

variable {name trail : List Char}

theorem continuesWord_of_isBlank {c : Char} (h : isBlank c = true) :
    Lexer.continuesWord c = false := by
  have codes : ∀ n ∈ List.range' 9 5 ++ List.range' 0x2000 11 ++
      [32, 0x85, 0xA0, 0x1680, 0x2028, 0x2029, 0x202F, 0x205F, 0x3000],
      Lexer.continuesWord (Char.ofNat n) = false := by decide +kernel
  rw [← Char.ofNat_toNat c]
  refine codes _ ?_
  simp only [isBlank, Bool.or_eq_true, Bool.and_eq_true, decide_eq_true_eq] at h
  simp only [List.mem_append, List.mem_range'_1, List.mem_cons, List.not_mem_nil, or_false]
  omega

theorem isWord_of_isBlank {c : Char} (h : isBlank c = true) : isWord c = false :=
  (Bool.or_eq_false_iff.mp (continuesWord_of_isBlank h)).1

theorem isBlank_of_isSpace {c : Char} (h : isSpace c = true) : isBlank c = true := by
  have blank : ∀ d ∈ spaces, isBlank d = true := List.all_iff_forall_prop.mp (by decide)
  exact blank c (mem_spaces h)

theorem isBlank_of_isGap {c : Char} (h : isGap c = true) : isBlank c = true :=
  isBlank_of_isSpace (isGap_iff.mp h).1

/-- The blanks after a name do not belong to it. -/
theorem trim_name (h : IsName name) (ht : ∀ c ∈ trail, isGap c = true) :
    trim (name ++ trail) = name := by
  have solid : ∀ c ∈ name, isBlank c = false := fun c hc => by
    by_contra blank
    rw [Bool.not_eq_false] at blank
    exact absurd (h.continuesWord c hc) (by rw [continuesWord_of_isBlank blank]; decide)
  have start : (name ++ trail).dropWhile isBlank = name ++ trail := by
    obtain ⟨c, cs, rfl⟩ := h.exists_cons
    rw [List.cons_append, List.dropWhile_cons_of_neg (by simp [solid c List.mem_cons_self])]
  rw [trim, start, dropEndWhile_trail fun c hc => isBlank_of_isGap (ht c hc),
    dropEndWhile_eq_self fun c hc => solid c (List.mem_of_getLast? hc)]

/-- A name with blanks after it is a body. -/
theorem isBody_name {c : Char} {cs : List Char} (h : IsName (c :: cs))
    (ht : ∀ c ∈ trail, isGap c = true) : IsBody c (cs ++ trail) := by
  have word : ∀ d ∈ spaces ++ ['/', '\\'], Lexer.continuesWord d = false :=
    List.all_iff_forall_prop.mp (by decide)
  have gap : ∀ d ∈ ['\n', '/', '\\'], isGap d = false := List.all_iff_forall_prop.mp (by decide)
  refine isBody_of_plain ?_ fun d hd mem => ?_
  · by_contra space
    rw [Bool.not_eq_false] at space
    exact absurd (h.continuesWord c List.mem_cons_self)
      (by rw [word c (List.mem_append_left _ (mem_spaces space))]; decide)
  · rcases List.mem_append.mp (List.cons_append ▸ hd) with inName | inTrail
    · have other : d ∈ spaces ++ ['/', '\\'] := by
        have sub : ∀ x ∈ ['\n', '/', '\\'], x ∈ spaces ++ ['/', '\\'] :=
          List.all_iff_forall_prop.mp (by decide)
        exact sub d mem
      exact absurd (h.continuesWord d inName) (by rw [word d other]; decide)
    · exact absurd (ht d inTrail) (by rw [gap d mem]; decide)

end Names

/-! ## Definitions -/

theorem definition_eq {cs rest : List Char} {name : String} (word : nextWord? cs = some (name, rest))
    (hr : ∀ c ∈ rest.head?, isSpace c = true) :
    definition cs = (.define name ((tail rest).value.map String.ofList), (tail rest).rest,
      (tail rest).sound) := by
  rw [definition, word]
  split
  next same => cases same
  next same =>
    obtain ⟨-, rfl⟩ := Prod.mk.inj (Option.some.inj same)
    exact absurd (hr '(' rfl) (by decide)
  next same =>
    obtain ⟨rfl, rfl⟩ := Prod.mk.inj (Option.some.inj same)
    rfl

section Definitions

variable {lead name : List Char}

theorem definition_bare {ending : List Char} (hl : ∀ c ∈ lead, isGap c = true) (h : IsName name)
    (he : ending = [] ∨ ending = ['\r']) (next : List Char) :
    definition (lead ++ (name ++ (ending ++ '\n' :: next))) =
      (.define (String.ofList name) none, next, true) := by
  have space : ∀ c ∈ (ending ++ '\n' :: next).head?, isSpace c = true := by
    rcases he with rfl | rfl <;> rintro _ ⟨⟩ <;> decide
  rw [definition_eq (nextWord?_eq hl h space) space, tail_newline he]
  rfl

theorem definition_body {gap : List Char} {c : Char} {cs : List Char}
    (hl : ∀ c ∈ lead, isGap c = true) (h : IsName name) (hg : ∀ c ∈ gap, isGap c = true)
    (apart : gap ≠ []) (hb : IsBody c cs) (next : List Char) :
    definition (lead ++ (name ++ (gap ++ (c :: cs ++ '\n' :: next)))) =
      (.define (String.ofList name) (some (String.ofList (c :: cs))), next, true) := by
  have space : ∀ d ∈ (gap ++ (c :: cs ++ '\n' :: next)).head?, isSpace d = true := by
    obtain ⟨d, ds, rfl⟩ := List.exists_cons_of_ne_nil apart
    rintro _ ⟨⟩
    exact (isGap_iff.mp (hg d List.mem_cons_self)).1
  rw [definition_eq (nextWord?_eq hl h space) space, tail_body hg apart hb]
  rfl

end Definitions

/-! ## The lines of commands -/

/-- The directive after the sign of a line gives the command, and only blanks are left of the
line. -/
def ReadsLine (text : List Char) (c : Command) : Prop :=
  ∃ used left d, text ++ ['\n'] = '#' :: (used ++ left) ∧ (∀ x ∈ left, isSpace x = true) ∧
    Directive.Gives d c ∧
    ∀ next, ∃ sound, Lexer.hash (used ++ (left ++ next)) = (.directive d, left ++ next, sound)

/-- The words of the directives of commands. -/
def commandWords : List String :=
  ["define", "undef", "if", "ifdef", "ifndef", "elif", "elifdef", "elifndef", "else", "endif"]

theorem directiveWord_command {word : String} (h : word ∈ commandWords) : DirectiveWord word :=
  .of_mem h (by decide)

theorem ReadsLine.of_word (word : String) (front left : List Char) {d : Directive} {c : Command}
    {text : List Char} (hw : word ∈ commandWords)
    (line : text ++ ['\n'] = '#' :: (word.toList ++ (front ++ left)))
    (hl : ∀ x ∈ left, isSpace x = true) (apart : ∀ x ∈ (front ++ left).head?, isWord x = false)
    (nonempty : front ++ left ≠ []) (gives : Directive.Gives d c)
    (reads : ∀ next, ∃ sound, directive word ("#" ++ word) (front ++ (left ++ next)) =
      (d, left ++ next, sound)) : ReadsLine text c := by
  refine ⟨word.toList ++ front, left, d, by rw [line, List.append_assoc], hl, gives, fun next => ?_⟩
  have head : ∀ x ∈ (front ++ (left ++ next)).head?, isWord x = false := by
    obtain ⟨x, xs, same⟩ := List.exists_cons_of_ne_nil nonempty
    rw [← List.append_assoc, same]
    rw [same] at apart
    exact apart
  obtain ⟨sound, reads⟩ := reads next
  exact ⟨sound, by rw [List.append_assoc, hash_word (directiveWord_command hw) head, reads]⟩

section Lines

variable {lead name trail : List Char}

theorem isSpace_trail (ht : ∀ c ∈ trail, isGap c = true) : ∀ c ∈ trail ++ ['\n'], isSpace c = true := by
  intro c hc
  rcases List.mem_append.mp hc with mem | mem
  · exact (isGap_iff.mp (ht c mem)).1
  · obtain rfl := List.mem_singleton.mp mem
    decide

theorem isWord_trail (ht : ∀ c ∈ trail, isGap c = true) (next : List Char) :
    ∀ c ∈ (trail ++ '\n' :: next).head?, isWord c = false :=
  fun c hc => isWord_of_isSpace (head_trail ht c hc)

theorem ReadsLine.define {ending : List Char} (hl : ∀ c ∈ lead, isGap c = true) (apart : lead ≠ [])
    (h : IsName name) (he : ending = [] ∨ ending = ['\r']) :
    ReadsLine ("#define".toList ++ (lead ++ (name ++ ending)))
      (.define (String.ofList name) none) := by
  refine .of_word "define" (lead ++ (name ++ (ending ++ ['\n']))) [] (by decide) (by simp) nofun ?_
    (by simp) (.define _ _) fun next => ⟨true, ?_⟩
  · rw [List.append_nil]
    exact head_lead hl apart
  · simpa [directive] using definition_bare hl h he next

theorem ReadsLine.defineAs {gap : List Char} {c : Char} {cs : List Char}
    (hl : ∀ c ∈ lead, isGap c = true) (apart : lead ≠ []) (h : IsName name)
    (hg : ∀ c ∈ gap, isGap c = true) (apart' : gap ≠ []) (hb : IsBody c cs) :
    ReadsLine ("#define".toList ++ (lead ++ (name ++ (gap ++ c :: cs))))
      (.define (String.ofList name) (some (String.ofList (c :: cs)))) := by
  refine .of_word "define" (lead ++ (name ++ (gap ++ (c :: cs ++ ['\n'])))) [] (by decide) (by simp)
    nofun ?_ (by simp) (.define _ _) fun next => ⟨true, ?_⟩
  · rw [List.append_nil]
    exact head_lead hl apart
  · simpa [directive] using definition_body hl h hg apart' hb next

theorem ReadsLine.undefine (hl : ∀ c ∈ lead, isGap c = true) (apart : lead ≠ []) (h : IsName name)
    (ht : ∀ c ∈ trail, isGap c = true) :
    ReadsLine ("#undef".toList ++ (lead ++ (name ++ trail))) (.undefine (String.ofList name)) := by
  have trimmed := trim_name h ht
  obtain ⟨c, cs, rfl⟩ := h.exists_cons
  have body := isBody_name h ht
  have gives : Directive.Gives (.call "#undef" (some (String.ofList (c :: (cs ++ trail)))))
      (.undefine (String.ofList (c :: cs))) := .undefine (by simpa using trimmed)
  refine .of_word "undef" (lead ++ (c :: (cs ++ trail) ++ ['\n'])) [] (by decide) (by simp) nofun ?_
    (by simp) gives fun next => ⟨true, ?_⟩
  · rw [List.append_nil]
    exact head_lead hl apart
  · have read := tail_body hl apart body next
    simp only [List.cons_append, List.append_assoc, List.nil_append, directive] at read ⊢
    rw [read]
    rfl

theorem IsCondition.ne_nil {text : List Char} (h : IsCondition text) : text ≠ [] := by
  obtain ⟨f, -, a, ps, -, ⟨-, proper, -⟩, rfl⟩ := h
  obtain ⟨c, cs, text, -⟩ := Atom.head_not_space proper
  rw [text]
  simp

/-- How the rest of a line is read for the end of the word that stands before it. -/
def readTest (word : String) (cs : List Char) : Test × List Char × Bool :=
  if word = "def" then nameTest .defined cs
  else if word = "ndef" then nameTest .undefined cs
  else conditionTest cs

/-- The test that a line asks for is read, and only blanks are left of the line. -/
theorem Test.Asks.reads {test : Test} {word : String} {argument : List Char}
    (h : test.Asks word argument) :
    word ∈ ["", "def", "ndef"] ∧ ∃ front trail, argument = front ++ trail ∧
      (∀ c ∈ trail, isGap c = true) ∧ (∀ c ∈ argument.head?, isWord c = false) ∧
      front ≠ [] ∧ ∀ next, ∃ sound,
        readTest word (front ++ (trail ++ '\n' :: next)) = (test, trail ++ '\n' :: next, sound) := by
  cases h with
  | @condition lead text trail hl h apart ht =>
    obtain ⟨c, cs, front⟩ := List.exists_cons_of_ne_nil
      (List.append_ne_nil_of_right_ne_nil lead h.ne_nil)
    refine ⟨by decide, lead ++ (text ++ trail), [], by simp, nofun, ?_, ?_, fun next => ⟨true, ?_⟩⟩
    · rw [← List.append_assoc, front]
      rw [front] at apart
      exact apart
    · rw [← List.append_assoc, front]
      simp
    · simpa [readTest] using conditionTest_eq h hl ht next
  | @defined lead name trail hl apart h ht =>
    refine ⟨by decide, lead ++ name, trail, by simp, ht, head_lead hl apart, by simp [apart],
      fun next => ⟨true, ?_⟩⟩
    rw [List.append_assoc]
    exact nameTest_eq .defined hl h (head_trail ht)
  | @undefined lead name trail hl apart h ht =>
    refine ⟨by decide, lead ++ name, trail, by simp, ht, head_lead hl apart, by simp [apart],
      fun next => ⟨true, ?_⟩⟩
    rw [List.append_assoc]
    exact nameTest_eq .undefined hl h (head_trail ht)

theorem directive_if {word : String} (h : word ∈ ["", "def", "ndef"]) (spelling : String)
    (cs : List Char) : directive ("if" ++ word) spelling cs =
      (.opens (readTest word cs).1, (readTest word cs).2) ∧
    directive ("elif" ++ word) spelling cs =
      (.elseOpens (readTest word cs).1, (readTest word cs).2) ∧
    "if" ++ word ∈ commandWords ∧ "elif" ++ word ∈ commandWords := by
  simp only [List.mem_cons, List.not_mem_nil, or_false] at h
  rcases h with rfl | rfl | rfl <;> exact ⟨rfl, rfl, by decide, by decide⟩

theorem ReadsLine.opens {test : Test} {word : String} {argument : List Char}
    (h : test.Asks word argument) :
    ReadsLine ("#if".toList ++ (word.toList ++ argument)) (.opens test) := by
  obtain ⟨hw, front, trail, rfl, ht, apart, nonempty, reads⟩ := h.reads
  refine .of_word ("if" ++ word) front (trail ++ ['\n']) (directive_if hw "" []).2.2.1 (by simp)
    (isSpace_trail ht) ?_ (by simp) (.opens test) fun next => ?_
  · obtain ⟨c, cs, rfl⟩ := List.exists_cons_of_ne_nil nonempty
    exact apart
  · obtain ⟨sound, reads⟩ := reads next
    refine ⟨sound, ?_⟩
    rw [(directive_if hw _ _).1, List.append_assoc, List.singleton_append, reads]

theorem ReadsLine.elseOpens {test : Test} {word : String} {argument : List Char}
    (h : test.Asks word argument) :
    ReadsLine ("#elif".toList ++ (word.toList ++ argument)) (.elseOpens test) := by
  obtain ⟨hw, front, trail, rfl, ht, apart, nonempty, reads⟩ := h.reads
  refine .of_word ("elif" ++ word) front (trail ++ ['\n']) (directive_if hw "" []).2.2.2 (by simp)
    (isSpace_trail ht) ?_ (by simp) (.elseOpens test) fun next => ?_
  · obtain ⟨c, cs, rfl⟩ := List.exists_cons_of_ne_nil nonempty
    exact apart
  · obtain ⟨sound, reads⟩ := reads next
    refine ⟨sound, ?_⟩
    rw [(directive_if hw _ _).2.1, List.append_assoc, List.singleton_append, reads]

theorem ReadsLine.otherwise (ht : ∀ c ∈ trail, isGap c = true) :
    ReadsLine ("#else".toList ++ trail) .otherwise :=
  .of_word "else" [] (trail ++ ['\n']) (by decide) (by simp) (isSpace_trail ht)
    (isWord_trail ht []) (by simp) .otherwise fun _ => ⟨true, rfl⟩

theorem ReadsLine.endif (ht : ∀ c ∈ trail, isGap c = true) :
    ReadsLine ("#endif".toList ++ trail) .endif :=
  .of_word "endif" [] (trail ++ ['\n']) (by decide) (by simp) (isSpace_trail ht)
    (isWord_trail ht []) (by simp) .endif fun _ => ⟨true, rfl⟩

/-- The line of a command is read as its directive. -/
theorem Command.Writes.readsLine {c : Command} {text : List Char} (h : c.Writes text) :
    ReadsLine text c := by
  cases h with
  | define hl apart h he => exact .define hl apart h he
  | defineAs hl apart h hg apart' hb => exact .defineAs hl apart h hg apart' hb
  | undefine hl apart h ht => exact .undefine hl apart h ht
  | opens h => exact .opens h
  | elseOpens h => exact .elseOpens h
  | otherwise ht => exact .otherwise ht
  | endif ht => exact .endif ht

end Lines

end ConstLookup.Source
