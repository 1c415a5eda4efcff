import ConstLookup.Define
import ConstLookup.Proofs.Text.Blanks
import ConstLookup.Proofs.Text.Identifier

/-!
  Definitions given on the command line. An argument has exactly one name (`names_iff`), and
  whether it is a definition depends on that name alone: it must be an identifier of C. What was
  read always gives a text for its name (`sound_of_parse`). It is printed as an argument that gives
  the same definition again (`parse_printed`), since a name holds no equals sign and a text that was
  read no blank at its ends.
-/

namespace ConstLookup.Define

open ConstLookup.Text

/-! ## The name in an argument -/

/-- The name stands alone in the argument, or before its first equals sign, with nothing but blanks
around it. -/
inductive Names : List Char → List Char → Prop where
  | alone {lead name trail : List Char} (hl : ∀ c ∈ lead, isBlank c = true)
      (ht : ∀ c ∈ trail, isBlank c = true) (trimmed : Trimmed name) (noSign : '=' ∉ name) :
      Names (lead ++ name ++ trail) name
  | beforeSign {lead name trail : List Char} (hl : ∀ c ∈ lead, isBlank c = true)
      (ht : ∀ c ∈ trail, isBlank c = true) (trimmed : Trimmed name) (noSign : '=' ∉ name)
      (value : List Char) : Names (lead ++ name ++ trail ++ '=' :: value) name

theorem splitEquals_of_notMem {cs : List Char} (h : '=' ∉ cs) : splitEquals cs = (cs, none) := by
  have all : ∀ c ∈ cs, decide (c ≠ '=') = true := fun c hc =>
    decide_eq_true fun e => h (e ▸ hc)
  have rest : cs.dropWhile (fun c => decide (c ≠ '=')) = [] := by
    rw [← List.append_nil cs, List.dropWhile_append_of_pos all]
    rfl
  rw [splitEquals, rest]

theorem splitEquals_append {before : List Char} (h : '=' ∉ before) (value : List Char) :
    splitEquals (before ++ '=' :: value) = (before, some value) := by
  rw [splitEquals, dropWhile_ne h, takeWhile_ne h]

/-- Before the first equals sign there is none, and what follows a text without one is nothing. -/
theorem splitEquals_cases (cs : List Char) :
    ('=' ∉ cs ∧ splitEquals cs = (cs, none)) ∨
      ∃ before value, cs = before ++ '=' :: value ∧ '=' ∉ before ∧
        splitEquals cs = (before, some value) := by
  by_cases h : '=' ∈ cs
  · obtain ⟨before, value, rfl, first⟩ := List.eq_append_cons_of_mem h
    exact .inr ⟨before, value, rfl, first, splitEquals_append first value⟩
  · exact .inl ⟨h, splitEquals_of_notMem h⟩

theorem noSign_of_blank {cs : List Char} (h : ∀ c ∈ cs, isBlank c = true) : '=' ∉ cs :=
  fun mem => absurd (h '=' mem) (by decide)

/-- An argument has exactly one name. -/
theorem names_iff {cs name : List Char} : Names cs name ↔ name = trim (splitEquals cs).1 := by
  constructor
  · intro h
    have none {lead name trail : List Char} (hl : ∀ c ∈ lead, isBlank c = true)
        (ht : ∀ c ∈ trail, isBlank c = true) (noSign : '=' ∉ name) :
        '=' ∉ lead ++ name ++ trail := by
      simp [noSign_of_blank hl, noSign_of_blank ht, noSign]
    cases h with
    | alone hl ht trimmed noSign =>
      rw [splitEquals_of_notMem (none hl ht noSign), trim_spaced hl ht trimmed]
    | beforeSign hl ht trimmed noSign value =>
      rw [splitEquals_append (none hl ht noSign), trim_spaced hl ht trimmed]
  · rintro rfl
    have part {before : List Char} (h : '=' ∉ before) : ∃ lead trail,
        before = lead ++ trim before ++ trail ∧ (∀ c ∈ lead, isBlank c = true) ∧
          (∀ c ∈ trail, isBlank c = true) ∧ '=' ∉ trim before := by
      obtain ⟨lead, trail, text, hl, ht⟩ := exists_trim before
      rw [← List.append_assoc] at text
      refine ⟨lead, trail, text, hl, ht, fun mem => h ?_⟩
      rw [text]
      exact List.mem_append_left _ (List.mem_append_right _ mem)
    rcases splitEquals_cases cs with ⟨noSign, split⟩ | ⟨before, value, rfl, noSign, split⟩
    · obtain ⟨lead, trail, text, hl, ht, own⟩ := part noSign
      rw [split]
      have names := Names.alone hl ht (trimmed_trim cs) own
      rwa [← text] at names
    · obtain ⟨lead, trail, text, hl, ht, own⟩ := part noSign
      rw [split]
      have names := Names.beforeSign hl ht (trimmed_trim before) own value
      rwa [← text] at names

/-! ## Reading -/

section Parse

variable {argument : String} {name : List Char}

theorem parse_of_identifier (named : Names argument.toList name)
    (h : isIdentifier name = true) :
    parse argument = .ok {
      name := String.ofList name
      body := some <|
        ((splitEquals argument.toList).2.map fun v => String.ofList (trim v)).getD "1" } := by
  obtain rfl := names_iff.mp named
  have nonempty : (trim (splitEquals argument.toList).1).isEmpty = false := by
    cases e : trim (splitEquals argument.toList).1 with
    | nil => rw [e] at h; cases h
    | cons c cs => rfl
  unfold parse
  dsimp only
  rw [nonempty, h]
  cases (splitEquals argument.toList).2 <;> rfl

theorem parse_of_empty (named : Names argument.toList []) :
    parse argument = .error (.emptyName argument) := by
  unfold parse
  dsimp only
  rw [← names_iff.mp named]
  rfl

theorem parse_of_invalid (named : Names argument.toList name) (nonempty : name ≠ [])
    (h : isIdentifier name = false) :
    parse argument = .error (.invalidName (String.ofList name)) := by
  obtain rfl := names_iff.mp named
  unfold parse
  dsimp only
  rw [h, if_neg (by simpa using nonempty)]
  rfl

end Parse

/-! ## Definitions that were read -/

/-- What was read names an identifier, and always gives a text for it, with no blank at its ends. -/
theorem sound_of_parse {argument : String} {d : Define} (h : parse argument = .ok d) :
    isIdentifier d.name.toList = true ∧ ∃ body, d.body = some body ∧ Trimmed body.toList := by
  unfold parse at h
  dsimp only at h
  split at h
  · cases h
  · split at h
    · cases h
    · next identifier =>
      cases h
      refine ⟨by simpa using identifier, _, rfl, ?_⟩
      cases (splitEquals argument.toList).2 with
      | none => exact trimmed_of_solid (List.forall_mem_singleton.mpr (by decide))
      | some v =>
        rw [String.toList_ofList]
        exact trimmed_trim v

theorem isIdentifier_of_parseAll {arguments : List String} {defines : List Define}
    (h : parseAll arguments = .ok defines) : ∀ d ∈ defines, isIdentifier d.name.toList = true := by
  rw [parseAll] at h
  induction arguments generalizing defines with
  | nil =>
    cases h
    exact List.forall_mem_nil _
  | cons argument arguments ih =>
    rw [List.mapM_cons] at h
    cases first : parse argument with
    | error e =>
      rw [first] at h
      cases h
    | ok d =>
      cases others : arguments.mapM parse with
      | error e =>
        rw [first, others] at h
        cases h
      | ok ds =>
        rw [first, others] at h
        cases h
        exact List.forall_mem_cons.mpr ⟨(sound_of_parse first).1, ih others⟩

/-! ## Printing and reading again -/

theorem solid_of_isIdentifier {name : List Char} (h : isIdentifier name = true) :
    (∀ c ∈ name, isBlank c = false) ∧ '=' ∉ name := by
  have part : ∀ c ∈ name, c ∈ nondigits ∨ c ∈ digits := by
    cases name with
    | nil => exact List.forall_mem_nil _
    | cons c cs =>
      obtain ⟨start, parts⟩ := isIdentifier_iff.mp h
      exact List.forall_mem_cons.mpr ⟨.inl start, parts⟩
  have letters : nondigits.all (fun c => !isBlank c && c ≠ '=') = true := by decide +kernel
  have others : digits.all (fun c => !isBlank c && c ≠ '=') = true := by decide +kernel
  have all : ∀ c ∈ name, isBlank c = false ∧ c ≠ '=' := fun c hc => by
    simpa using (part c hc).elim (List.all_eq_true.mp letters c) (List.all_eq_true.mp others c)
  exact ⟨fun c hc => (all c hc).1, fun mem => (all '=' mem).2 rfl⟩

/-- A name and a text as they are printed give the definition that has them. -/
theorem parse_printed {name body : String} (identifier : isIdentifier name.toList = true)
    (trimmed : Trimmed body.toList) :
    parse (name ++ "=" ++ body) = .ok { name := name, body := some body } := by
  obtain ⟨solid, noSign⟩ := solid_of_isIdentifier identifier
  have text : (name ++ "=" ++ body).toList =
      [] ++ name.toList ++ [] ++ '=' :: body.toList := by simp
  have named : Names (name ++ "=" ++ body).toList name.toList := by
    rw [text]
    exact .beforeSign (List.forall_mem_nil _) (List.forall_mem_nil _) (trimmed_of_solid solid)
      noSign _
  rw [parse_of_identifier named identifier, text, List.nil_append, List.append_nil,
    splitEquals_append noSign]
  simp [trimmed.trim_eq]

theorem argument_eq {d : Define} {body : String} (h : d.body = some body) :
    d.argument = "-D" ++ (d.name ++ "=" ++ body) := by
  simp [argument, h, toString, String.append_assoc]

/-- An argument is a definition exactly if its name, which is the only one, is an identifier of C;
otherwise the failure tells an empty name from an invalid one. A definition that was read, printed
as an argument of the compiler, is read from it again. -/
theorem parse_reparse (argument : String) :
    ∃ name, (∀ other, Names argument.toList other ↔ other = name) ∧
      ((∃ d, parse argument = .ok d) ↔ CIdentifier name) ∧
      (parse argument = .error (.emptyName argument) ↔ name = []) ∧
      (parse argument = .error (.invalidName (String.ofList name)) ↔
        name ≠ [] ∧ ¬ CIdentifier name) ∧
      ∀ d, parse argument = .ok d → d.name = String.ofList name ∧
        ∃ rest, d.argument = "-D" ++ rest ∧ parse rest = .ok d := by
  obtain ⟨name, e⟩ : ∃ name, name = trim (splitEquals argument.toList).1 := ⟨_, rfl⟩
  have only : ∀ other, Names argument.toList other ↔ other = name := fun other => by
    rw [e]
    exact names_iff
  have named : Names argument.toList name := (only name).mpr rfl
  refine ⟨name, only, ?_⟩
  rw [← isIdentifier_iff]
  rcases Bool.eq_false_or_eq_true (isIdentifier name) with identifier | other
  · have read := parse_of_identifier named identifier
    have nonempty : name ≠ [] := by rintro rfl; cases identifier
    simp only [read, identifier, nonempty]
    refine ⟨by simp, by simp, by simp, ?_⟩
    intro d same
    obtain ⟨identifier, body, given, trimmed⟩ := sound_of_parse (read.trans same)
    cases same
    cases given
    exact ⟨rfl, _, argument_eq rfl, parse_printed identifier trimmed⟩
  · by_cases nonempty : name = []
    · subst nonempty
      simp [parse_of_empty named, other]
    · simp [parse_of_invalid named nonempty other, other, nonempty]

end ConstLookup.Define
