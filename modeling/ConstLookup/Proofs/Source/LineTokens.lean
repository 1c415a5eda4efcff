import ConstLookup.Proofs.Source.Formula
import ConstLookup.Proofs.Text.Runs

/-!
  The tokens of one line. A text that is tokens with blanks between them is split into these
  tokens again, provided that no token goes on with the text after it; so a condition is read off
  the rest of its line as it stands there.
-/

namespace ConstLookup.Source

open ConstLookup.Text ConstLookup.Source.Lexer

/-! ## What can stand in a line -/

/-- A blank inside a line. -/
def isGap (c : Char) : Bool := isSpace c && c ≠ '\n'

theorem isGap_iff {c : Char} : isGap c = true ↔ isSpace c = true ∧ c ≠ '\n' := by
  simp [isGap]

/-- Blanks before a line end begin with a blank. -/
theorem head_trail {trail next : List Char} (ht : ∀ c ∈ trail, isGap c = true) :
    ∀ c ∈ (trail ++ '\n' :: next).head?, isSpace c = true := by
  cases trail with
  | nil => rintro _ ⟨⟩; decide
  | cons c trail =>
    rintro _ ⟨⟩
    exact (isGap_iff.mp (ht c List.mem_cons_self)).1

/-- A word of C. -/
def IsName : List Char → Prop
  | [] => False
  | c :: cs => startsWord c = true ∧ ∀ d ∈ cs, continuesWord d = true

theorem IsName.exists_cons {name : List Char} (h : IsName name) : ∃ c cs, name = c :: cs := by
  cases name with
  | nil => exact h.elim
  | cons c cs => exact ⟨c, cs, rfl⟩

theorem IsName.continuesWord {name : List Char} (h : IsName name) :
    ∀ c ∈ name, Lexer.continuesWord c = true := by
  cases name with
  | nil => exact h.elim
  | cons c cs =>
    refine List.forall_mem_cons.mpr ⟨?_, h.2⟩
    have starts := h.1
    simp only [startsWord, Bool.or_eq_true, Bool.and_eq_true] at starts
    simpa [Lexer.continuesWord] using starts.imp_left And.left

/-- A number as it stands in a text: a digit and all that goes on with it. -/
def IsNumber : List Char → Prop
  | [] => False
  | c :: cs => isDigit c = true ∧ afterNumber c cs = []

/-- The marks of conditions. -/
def conditionMarks : List String := ["(", ")", ","] ++ unarySigns ++ conditionOperators

/-- The token can stand in a condition. -/
def Atom.Proper : Atom → Prop
  | name text => IsName text
  | number text => IsNumber text
  | mark spelling => spelling ∈ conditionMarks

/-- The character goes on with a number that ends in `previous`. -/
def continuesNumber (previous c : Char) : Bool :=
  isIdentPart c || c = '.' || c = '\'' ||
    ((c = '+' || c = '-') && ['e', 'E', 'p', 'P'].contains previous)

/-- The character goes on with a token: with a word, also to a literal, with a number, or with a
mark to a longer one or to a comment. -/
def Atom.continues : Atom → Char → Bool
  | name _, c => continuesWord c || c = '"' || c = '\''
  | number text, c => continuesNumber (text.getLast?.getD ' ') c
  | mark spelling, c =>
    ("//" :: "/*" :: directiveMarks).any fun m => (spelling.toList ++ [c]).isPrefixOf m.toList

/-- The token ends where the text begins. -/
def Atom.Ends (a : Atom) (rest : List Char) : Prop := ∀ c ∈ rest.head?, a.continues c = false

/-- No literal begins where no quote follows an encoding. -/
theorem opening?_eq_none {cs : List Char}
    (h : ∀ e ∈ encodings, ∀ q rest, cs = e ++ q :: rest → q ≠ '"' ∧ q ≠ '\'') :
    opening? cs = none := by
  refine List.findSome?_eq_none_iff.mpr fun e he => ?_
  split
  next front =>
    obtain ⟨rest, rfl⟩ := List.isPrefixOf_iff_prefix.mp front
    rw [List.drop_left]
    split
    next rest => exact absurd rfl (h e he _ rest rfl).1
    next rest => exact absurd rfl (h e he _ rest rfl).2
    next => rfl
  next => rfl

theorem opening?_eq_none_of_head {c : Char} {cs : List Char}
    (h : c ∉ ['L', 'u', 'U', '"', '\'']) : opening? (c :: cs) = none := by
  refine opening?_eq_none fun e he q rest same => ?_
  simp only [List.mem_cons, List.not_mem_nil, or_false, not_or] at h
  obtain ⟨hL, hu, hU, hq, hs⟩ := h
  simp only [encodings, List.mem_cons, List.not_mem_nil, or_false] at he
  rcases he with rfl | rfl | rfl | rfl | rfl
  · obtain rfl := (List.cons.inj same).1
    exact ⟨hq, hs⟩
  · exact absurd (List.cons.inj same).1 hL
  · exact absurd (List.cons.inj same).1 hu
  · exact absurd (List.cons.inj same).1 hU
  · exact absurd (List.cons.inj same).1 hu

theorem opening?_eq_none_of_name {word rest : List Char}
    (hw : ∀ c ∈ word, continuesWord c = true)
    (hr : ∀ c ∈ rest.head?, continuesWord c = false ∧ c ≠ '"' ∧ c ≠ '\'') :
    opening? (word ++ rest) = none := by
  have encoding : ∀ c ∈ encodings.flatten, continuesWord c = true :=
    List.all_iff_forall_prop.mp (by decide)
  refine opening?_eq_none fun e he q tail same => ?_
  rcases List.append_eq_append_iff.mp same with ⟨more, rfl, hrest⟩ | ⟨more, rfl, hmore⟩
  · -- the word ends inside the encoding or with it
    cases more with
    | nil =>
      subst hrest
      exact (hr q rfl).2
    | cons c more =>
      subst hrest
      have goesOn := encoding c (List.mem_flatten.mpr ⟨_, he, by simp⟩)
      exact absurd goesOn (by rw [(hr c rfl).1]; decide)
  · cases more with
    | nil =>
      subst hmore
      exact (hr q rfl).2
    | cons c more =>
      obtain ⟨rfl, -⟩ := List.cons.inj hmore
      have goesOn := hw q (by simp)
      constructor <;> rintro rfl <;> exact absurd goesOn (by decide)

/-! ### One token -/

theorem consumed_append (front rest : List Char) : consumed (front ++ rest) rest = front := by
  simp [consumed]

theorem afterNumber_append {previous : Char} {cs rest : List Char}
    (h : afterNumber previous cs = [])
    (hr : ∀ c ∈ rest.head?, continuesNumber ((previous :: cs).getLast?.getD ' ') c = false) :
    afterNumber previous (cs ++ rest) = rest := by
  induction cs generalizing previous with
  | nil =>
    cases rest with
    | nil => rfl
    | cons c rest =>
      have stops := hr c rfl
      simp only [List.getLast?_singleton, Option.getD_some, continuesNumber] at stops
      rw [List.nil_append, afterNumber]
      simp only [stops]
      rfl
  | cons c cs ih =>
    rw [afterNumber] at h
    rw [List.cons_append, afterNumber]
    split at h
    · next goesOn =>
      rw [if_pos goesOn]
      refine ih h ?_
      rwa [List.getLast?_cons_cons] at hr
    · cases h

section Lexeme

variable {rest : List Char}

theorem lexeme_name {c : Char} {cs : List Char} (h : IsName (c :: cs))
    (hr : (Atom.name (c :: cs)).Ends rest) :
    lexeme directiveMarks c (cs ++ rest) = (.word, rest, true) := by
  have stops : ∀ d ∈ rest.head?, continuesWord d = false ∧ d ≠ '"' ∧ d ≠ '\'' := fun d hd => by
    simpa [Atom.continues, and_assoc] using hr d hd
  have plain := opening?_eq_none_of_name h.continuesWord stops
  rw [List.cons_append] at plain
  rw [lexeme, plain]
  dsimp only
  rw [if_pos h.1, dropWhile_run h.2 fun d hd => (stops d hd).1]

theorem lexeme_number {c : Char} {cs : List Char} (h : IsNumber (c :: cs))
    (hr : (Atom.number (c :: cs)).Ends rest) :
    lexeme directiveMarks c (cs ++ rest) = (.number, rest, true) := by
  obtain ⟨digit, goesOn⟩ := h
  have plain : opening? (c :: (cs ++ rest)) = none :=
    opening?_eq_none_of_head fun mem => by
      have none : ∀ d ∈ ['L', 'u', 'U', '"', '\''], isDigit d = false :=
        List.all_iff_forall_prop.mp (by decide)
      exact absurd digit (by rw [none c mem]; decide)
  have noDollar : c ≠ '$' := by
    rintro rfl
    exact absurd digit (by decide)
  have noWord : startsWord c = false := by simp [startsWord, digit, noDollar]
  rw [lexeme, plain]
  dsimp only
  rw [noWord, digit, afterNumber_append goesOn hr]
  rfl

/-- A longer mark that a text begins with after a mark of a condition is this mark. -/
theorem eq_of_isPrefixOf {spelling m : String} (h : spelling ∈ conditionMarks)
    (hr : (Atom.mark spelling).Ends rest) (hm : m ∈ directiveMarks)
    (front : m.toList.isPrefixOf (spelling.toList ++ rest) = true) : m = spelling := by
  have inside : ∀ s ∈ conditionMarks, ∀ m ∈ directiveMarks,
      m.toList.isPrefixOf s.toList = true → m = s := by decide
  obtain ⟨tail, same⟩ := List.isPrefixOf_iff_prefix.mp front
  rcases List.append_eq_append_iff.mp same with ⟨more, longer, -⟩ | ⟨more, longer, rfl⟩
  · exact inside _ h m hm (List.isPrefixOf_iff_prefix.mpr ⟨more, longer.symm⟩)
  · cases more with
    | nil => exact String.toList_inj.mp (by simpa using longer)
    | cons c more =>
      have stops := List.any_eq_false.mp (hr c rfl) m (by simp [hm])
      refine absurd (List.isPrefixOf_iff_prefix.mpr ?_) stops
      exact ⟨more, by rw [longer]; simp⟩

theorem lexeme_mark {spelling : String} (h : spelling ∈ conditionMarks)
    (hr : (Atom.mark spelling).Ends rest) {c : Char} {cs : List Char}
    (text : spelling.toList = c :: cs) :
    ∃ sound, lexeme directiveMarks c (cs ++ rest) = (.mark, rest, sound) := by
  have first : ∀ d ∈ conditionMarks.filterMap (·.toList.head?), startsWord d = false ∧
      isDigit d = false ∧ d ≠ '.' ∧ d ∉ ['L', 'u', 'U', '"', '\''] :=
    List.all_iff_forall_prop.mp (by decide)
  have short : ∀ s ∈ conditionMarks, s ∉ directiveMarks → s.toList.length = 1 := by decide
  obtain ⟨noWord, noDigit, noPoint, plain⟩ :=
    first c (List.mem_filterMap.mpr ⟨spelling, h, by rw [text]; rfl⟩)
  rw [lexeme, opening?_eq_none_of_head plain]
  dsimp only
  rw [if_neg (by simp [noWord]), if_neg (by simp [noDigit, noPoint])]
  cases found : directiveMarks.find? fun m => m.toList.isPrefixOf (c :: (cs ++ rest)) with
  | some m =>
    have front : m.toList.isPrefixOf (spelling.toList ++ rest) = true := by
      simpa [text] using List.find?_some found
    obtain rfl := eq_of_isPrefixOf h hr (List.mem_of_find?_eq_some found) front
    have length : m.length = (c :: cs).length := by rw [← text, String.length_toList]
    refine ⟨true, ?_⟩
    dsimp only
    rw [length, ← List.cons_append, List.drop_left]
  | none =>
    have noLong : spelling ∉ directiveMarks := fun mem => by
      have front : spelling.toList.isPrefixOf (c :: (cs ++ rest)) = true :=
        List.isPrefixOf_iff_prefix.mpr ⟨rest, by rw [text, List.cons_append]⟩
      exact absurd front (List.find?_eq_none.mp found spelling mem)
    have one := short spelling h noLong
    rw [text] at one
    obtain rfl := List.eq_nil_of_length_eq_zero (Nat.succ.inj one)
    exact ⟨_, rfl⟩

/-- A token that ends where the rest begins is read off the text. -/
theorem lexeme_atom {a : Atom} (h : a.Proper) (hr : a.Ends rest) :
    ∃ c cs sound, a.text = c :: cs ∧ lexeme directiveMarks c (cs ++ rest) = (a.kind, rest, sound) := by
  cases a with
  | name text =>
    cases text with
    | nil => exact h.elim
    | cons c cs => exact ⟨c, cs, true, rfl, lexeme_name h hr⟩
  | number text =>
    cases text with
    | nil => exact h.elim
    | cons c cs => exact ⟨c, cs, true, rfl, lexeme_number h hr⟩
  | mark spelling =>
    have nonempty : ∀ s ∈ conditionMarks, s.toList ≠ [] := by decide
    obtain ⟨c, cs, text⟩ := List.exists_cons_of_ne_nil (nonempty spelling h)
    obtain ⟨sound, reads⟩ := lexeme_mark h hr text
    exact ⟨c, cs, sound, text, reads⟩

end Lexeme

/-! ### Blanks before a token -/

/-- No blank, no continued line end and no comment begins the text. -/
structure Solid (cs : List Char) : Prop where
  head : ∀ c ∈ cs.head?, isGap c = false ∧ c ≠ '\\'
  comment : afterComment? cs = none

theorem afterComment?_eq_none {c : Char} (cs : List Char) (h : c ≠ '/') :
    afterComment? (c :: cs) = none := by
  unfold afterComment?
  split
  next same => exact absurd (List.cons.inj same).1 h
  next same => exact absurd (List.cons.inj same).1 h
  next => rfl

theorem solid_newline (cs : List Char) : Solid ('\n' :: cs) :=
  ⟨by rintro _ ⟨⟩; decide, afterComment?_eq_none cs (by decide)⟩

/-- No continued line end stands at the start. -/
theorem afterLineGap_of_plain {c : Char} {cs : List Char}
    (plain : ∀ more, c :: cs ≠ '\\' :: '\n' :: more ∧ c :: cs ≠ '\\' :: '\r' :: '\n' :: more)
    (steps : Nat) :
    afterLineGap (steps + 1) (c :: cs) =
      if isGap c then afterLineGap steps cs
      else match afterComment? (c :: cs) with
        | some rest => afterLineGap steps rest
        | none => c :: cs := by
  refine afterLineGap.eq_5 steps c cs ?_ ?_
  · rintro more rfl rfl
    exact (plain more).2 rfl
  · rintro more rfl rfl
    exact (plain more).1 rfl

theorem afterLineGap_cons {c : Char} (h : c ≠ '\\') (steps : Nat) (cs : List Char) :
    afterLineGap (steps + 1) (c :: cs) =
      if isGap c then afterLineGap steps cs
      else match afterComment? (c :: cs) with
        | some rest => afterLineGap steps rest
        | none => c :: cs :=
  afterLineGap_of_plain (fun _ => ⟨fun same => h (List.cons.inj same).1,
    fun same => h (List.cons.inj same).1⟩) steps

/-- Blanks of a line are skipped. -/
theorem afterLineGap_append {gap rest : List Char} (hg : ∀ c ∈ gap, isGap c = true)
    (hr : Solid rest) {steps : Nat} (enough : gap.length < steps) :
    afterLineGap steps (gap ++ rest) = rest := by
  induction gap generalizing steps with
  | nil =>
    obtain ⟨steps, rfl⟩ := Nat.exists_eq_add_of_lt enough
    cases rest with
    | nil => rw [List.nil_append, afterLineGap.eq_def]
    | cons c rest =>
      obtain ⟨solid, noSplice⟩ := hr.head c rfl
      rw [List.nil_append, afterLineGap_cons noSplice, solid, hr.comment]
      rfl
  | cons c gap ih =>
    obtain ⟨steps, rfl⟩ := Nat.exists_eq_add_of_lt enough
    obtain ⟨blank, hg⟩ := List.forall_mem_cons.mp hg
    have noSplice : c ≠ '\\' := by
      rintro rfl
      exact absurd blank (by decide)
    rw [List.cons_append, afterLineGap_cons noSplice, if_pos blank]
    exact ih hg (by simp only [List.length_cons]; omega)

/-! ### All tokens of a line -/

/-- The characters between tokens. -/
def spaces : List Char := [' ', '\t', '\n', '\x0b', '\x0c', '\r']

theorem mem_spaces {c : Char} (h : isSpace c = true) : c ∈ spaces := by
  simpa [isSpace, spaces, or_assoc] using h

/-- No token goes on with a blank. -/
theorem Atom.continues_space {a : Atom} (h : a.Proper) {c : Char} (hc : isSpace c = true) :
    a.continues c = false := by
  have mem := mem_spaces hc
  cases a with
  | name text =>
    have none : ∀ d ∈ spaces, (continuesWord d || d = '"' || d = '\'') = false :=
      List.all_iff_forall_prop.mp (by decide)
    exact none c mem
  | number text =>
    have none : ∀ d ∈ spaces, (isIdentPart d || d = '.' || d = '\'') = false ∧ d ≠ '+' ∧ d ≠ '-' :=
      List.all_iff_forall_prop.mp (by decide)
    obtain ⟨plain, plus, minus⟩ := none c mem
    rw [Atom.continues, continuesNumber, plain]
    simp [plus, minus]
  | mark spelling =>
    have none : ∀ d ∈ spaces, ∀ s ∈ conditionMarks,
        (("//" :: "/*" :: directiveMarks).any fun m =>
          (s.toList ++ [d]).isPrefixOf m.toList) = false :=
      List.all_iff_forall_prop.mp (by decide)
    exact none c mem spelling h

/-- A token begins neither with a blank nor with a backslash. -/
theorem Atom.head_not_space {a : Atom} (h : a.Proper) :
    ∃ c cs, a.text = c :: cs ∧ c ∉ '\\' :: spaces := by
  cases a with
  | name text =>
    cases text with
    | nil => exact h.elim
    | cons c cs =>
      have none : ∀ d ∈ '\\' :: spaces, startsWord d = false :=
        List.all_iff_forall_prop.mp (by decide)
      exact ⟨c, cs, rfl, fun mem => absurd h.1 (by rw [none c mem]; decide)⟩
  | number text =>
    cases text with
    | nil => exact h.elim
    | cons c cs =>
      have none : ∀ d ∈ '\\' :: spaces, isDigit d = false :=
        List.all_iff_forall_prop.mp (by decide)
      exact ⟨c, cs, rfl, fun mem => absurd h.1 (by rw [none c mem]; decide)⟩
  | mark spelling =>
    have nonempty : ∀ s ∈ conditionMarks, s.toList ≠ [] := by decide
    have none : ∀ c ∈ conditionMarks.filterMap (·.toList.head?), c ∉ '\\' :: spaces :=
      List.all_iff_forall_prop.mp (by decide)
    obtain ⟨c, cs, text⟩ := List.exists_cons_of_ne_nil (nonempty spelling h)
    exact ⟨c, cs, text, none c (List.mem_filterMap.mpr ⟨spelling, h, by rw [text]; rfl⟩)⟩

/-- A token that ends does not open a comment. -/
theorem Atom.afterComment?_text {a : Atom} (h : a.Proper) {rest : List Char} (hr : a.Ends rest) :
    afterComment? (a.text ++ rest) = none := by
  cases a with
  | name text =>
    cases text with
    | nil => exact h.elim
    | cons c cs =>
      refine afterComment?_eq_none _ ?_
      rintro rfl
      exact absurd h.1 (by decide)
  | number text =>
    cases text with
    | nil => exact h.elim
    | cons c cs =>
      refine afterComment?_eq_none _ ?_
      rintro rfl
      exact absurd h.1 (by decide)
  | mark spelling =>
    by_cases slash : spelling = "/"
    · subst slash
      cases rest with
      | nil => rfl
      | cons c rest =>
        have stops := hr c rfl
        have other : c ≠ '/' ∧ c ≠ '*' := by
          constructor <;> rintro rfl <;> exact absurd stops (by decide)
        show afterComment? ('/' :: c :: rest) = none
        unfold afterComment?
        split
        next same => exact absurd (List.cons.inj (List.cons.inj same).2).1 other.1
        next same => exact absurd (List.cons.inj (List.cons.inj same).2).1 other.2
        next => rfl
    · have heads : ∀ s ∈ conditionMarks, s ≠ "/" → s.toList.head? ≠ some '/' := by decide
      have nonempty : ∀ s ∈ conditionMarks, s.toList ≠ [] := by decide
      obtain ⟨c, cs, text⟩ := List.exists_cons_of_ne_nil (nonempty spelling h)
      rw [Atom.text, text]
      refine afterComment?_eq_none _ ?_
      rintro rfl
      exact heads spelling h slash (by rw [text]; rfl)

theorem isGap_eq_false {c : Char} (h : c ∉ spaces) : isGap c = false := by
  rw [isGap, Bool.and_eq_false_iff]
  exact .inl (Bool.eq_false_iff.mpr fun space => h (mem_spaces space))

theorem solid_atom {a : Atom} (h : a.Proper) {rest : List Char} (hr : a.Ends rest) :
    Solid (a.text ++ rest) := by
  refine ⟨?_, Atom.afterComment?_text h hr⟩
  obtain ⟨c, cs, text, head⟩ := Atom.head_not_space h
  rw [text]
  rintro _ ⟨⟩
  exact ⟨isGap_eq_false (List.not_mem_of_not_mem_cons head), List.ne_of_not_mem_cons head⟩

/-- The text of tokens, each after its blanks. -/
def written (ps : List (List Char × Atom)) : List Char := ps.flatMap fun p => p.1 ++ p.2.text

/-- Tokens, each after blanks of the line, none of which goes on with the text after it. -/
def Separated : List (List Char × Atom) → Prop
  | [] => True
  | p :: ps => (∀ c ∈ p.1, isGap c = true) ∧ p.2.Proper ∧ p.2.Ends (written ps) ∧ Separated ps

theorem Separated.ends {p : List Char × Atom} {ps : List (List Char × Atom)}
    (h : Separated (p :: ps)) {tail : List Char} (ht : ∀ c ∈ tail.head?, isSpace c = true) :
    p.2.Ends (written ps ++ tail) := by
  obtain ⟨-, proper, ends, -⟩ := h
  intro c hc
  cases rest : written ps with
  | nil =>
    rw [rest, List.nil_append] at hc
    exact Atom.continues_space proper (ht c hc)
  | cons d cs =>
    rw [rest] at hc
    exact ends c (by rw [rest]; exact hc)

theorem lineTokens_end {cs next : List Char} (h : afterLineGap (cs.length + 1) cs = '\n' :: next)
    (steps : Nat) : lineTokens (steps + 1) cs = ([], '\n' :: next) := by
  rw [lineTokens, h]
  rfl

theorem lineTokens_cons {cs more rest : List Char} {c : Char} {kind : TokenKind} {sound : Bool}
    (h : afterLineGap (cs.length + 1) cs = c :: more) (hc : c ≠ '\n')
    (reads : lexeme directiveMarks c more = (kind, rest, sound)) (steps : Nat) :
    lineTokens (steps + 1) cs =
      ({ kind := kind, text := consumed (c :: more) rest, gap := consumed cs (c :: more)
         position := {}, sound := sound } :: (lineTokens steps rest).1,
        (lineTokens steps rest).2) := by
  rw [lineTokens, h]
  split
  next same => cases same
  next same => exact absurd (List.cons.inj same).1 hc
  next same =>
    obtain ⟨rfl, rfl⟩ := List.cons.inj same
    rw [reads]

/-- The tokens of a line are read off the text, and with their blanks they make up the text. -/
theorem lineTokens_written {ps : List (List Char × Atom)} (h : Separated ps)
    {trail : List Char} (ht : ∀ c ∈ trail, isGap c = true) (next : List Char) {steps : Nat}
    (enough : (written ps).length < steps) :
    ∃ ts, lineTokens steps (written ps ++ (trail ++ '\n' :: next)) = (ts, '\n' :: next) ∧
      Spells (ps.map (·.2)) ts ∧
      ts.map (fun t => (t.gap, t.text)) = ps.map fun p => (p.1, p.2.text) := by
  induction ps generalizing steps with
  | nil =>
    obtain ⟨steps, rfl⟩ := Nat.exists_eq_add_of_lt enough
    have skipped : afterLineGap ((trail ++ '\n' :: next).length + 1) (trail ++ '\n' :: next) =
        '\n' :: next :=
      afterLineGap_append ht (solid_newline next) (by simp only [List.length_append]; omega)
    exact ⟨[], lineTokens_end skipped _, .nil, rfl⟩
  | cons p ps ih =>
    obtain ⟨steps, rfl⟩ := Nat.exists_eq_add_of_lt enough
    have ends : p.2.Ends (written ps ++ (trail ++ '\n' :: next)) := h.ends (head_trail ht)
    obtain ⟨gap, proper, -, h⟩ := h
    obtain ⟨c, cs, sound, text, reads⟩ := lexeme_atom proper ends
    have solid := solid_atom proper ends
    have line : written (p :: ps) ++ (trail ++ '\n' :: next) =
        p.1 ++ (p.2.text ++ (written ps ++ (trail ++ '\n' :: next))) := by
      simp [written]
    have length : (written (p :: ps)).length = p.1.length + p.2.text.length + (written ps).length := by
      simp [written, Nat.add_assoc]
    have noNewline : c ≠ '\n' := by
      obtain ⟨d, ds, head, noSpace⟩ := Atom.head_not_space proper
      obtain rfl := (List.cons.inj (text.symm.trans head)).1
      rintro rfl
      exact noSpace (by decide)
    rw [line]
    generalize hall : p.1 ++ (p.2.text ++ (written ps ++ (trail ++ '\n' :: next))) = all
    have skipped : afterLineGap (all.length + 1) all =
        c :: (cs ++ (written ps ++ (trail ++ '\n' :: next))) := by
      rw [← List.cons_append, ← text, ← hall]
      exact afterLineGap_append gap solid (by simp only [List.length_append]; omega)
    have enough' : (written ps).length < (written (p :: ps)).length + steps := by
      rw [length, text, List.length_cons]
      omega
    obtain ⟨ts, rest, spells, same⟩ := ih h enough'
    rw [lineTokens_cons skipped noNewline reads, rest]
    have textEq : consumed (c :: (cs ++ (written ps ++ (trail ++ '\n' :: next))))
        (written ps ++ (trail ++ '\n' :: next)) = p.2.text := by
      rw [← List.cons_append, consumed_append, text]
    have gapEq : consumed all (c :: (cs ++ (written ps ++ (trail ++ '\n' :: next)))) = p.1 := by
      rw [← hall, ← List.cons_append, ← text, consumed_append]
    refine ⟨_, rfl, List.Forall₂.cons ⟨rfl, textEq⟩ spells, ?_⟩
    rw [List.map_cons, List.map_cons, same, textEq, gapEq]

/-- A text that is a condition: the tokens of a formula, perhaps with blanks between them. -/
def IsCondition (text : List Char) : Prop :=
  ∃ f : Formula, f.Proper ∧ ∃ a ps, f.atoms = a :: ps.map (·.2) ∧ Separated (([], a) :: ps) ∧
    text = a.text ++ written ps

/-- The text of tokens starts with the first one and goes on with blanks and tokens. -/
theorem textOf_eq {gap : List Char} {a : Atom} {ps : List (List Char × Atom)} {ts : List Token}
    (h : ts.map (fun t => (t.gap, t.text)) = ((gap, a) :: ps).map fun p => (p.1, p.2.text)) :
    textOf ts = String.ofList (a.text ++ written ps) := by
  obtain ⟨t, us, rfl, first, rest⟩ := List.map_eq_cons_iff.mp h
  have text : t.text = a.text := congrArg Prod.snd first
  have others : us.flatMap (fun u => u.gap ++ u.text) = written ps := by
    have joined := congrArg (List.flatMap fun q => q.1 ++ q.2) rest
    rwa [List.flatMap_map, List.flatMap_map] at joined
  rw [textOf, text, others]

/-- A condition is read off the rest of its line. -/
theorem conditionTest_eq {lead text trail : List Char} (h : IsCondition text)
    (hl : ∀ c ∈ lead, isGap c = true) (ht : ∀ c ∈ trail, isGap c = true) (next : List Char) :
    conditionTest (lead ++ (text ++ (trail ++ '\n' :: next))) =
      (.condition (some (String.ofList text)), '\n' :: next, true) := by
  obtain ⟨f, proper, a, ps, atoms, ⟨-, separated⟩, rfl⟩ := h
  have line : lead ++ (a.text ++ written ps ++ (trail ++ '\n' :: next)) =
      written ((lead, a) :: ps) ++ (trail ++ '\n' :: next) := by
    simp [written]
  have joined : Separated ((lead, a) :: ps) := ⟨hl, separated⟩
  have enough : (written ((lead, a) :: ps)).length <
      (written ((lead, a) :: ps) ++ (trail ++ '\n' :: next)).length + 1 := by
    simp only [List.length_append]
    omega
  obtain ⟨ts, reads, spells, same⟩ := lineTokens_written joined ht next enough
  have condition : Lexer.isCondition ts = true := Formula.isCondition proper (atoms ▸ spells)
  rw [line, conditionTest, reads]
  dsimp only
  rw [conditionStart_eq_some condition, ← textOf_eq same]
  simp

end ConstLookup.Source
