import ConstLookup.Proofs.Emit.BufferSize
import ConstLookup.Proofs.Emit.Defined
import ConstLookup.Proofs.Text.Case
import ConstLookup.Proofs.Text.Runs

/-!
  The two forms of a lookup answer the same (`forms_answer_alike`). The lines of either form are
  read off its text (`codeLines_renderMacro`, `codeLines_renderInline`). Of the selectors in these
  lines each entry gives one, with its label in the line after it, and then comes the default
  (`answersFrom_table`). The lines of a macro all go on but the last one, so the preprocessor reads
  one directive (`oneDirective_definition`).
-/

namespace ConstLookup.Emit

open ConstLookup.Text

/-! ## Lines of a text -/

/-- The lines of a text. -/
def physicalLines (text : String) : List (List Char) := text.toList.splitOn '\n'

/-- The lines that the preprocessor reads: a line that goes on is joined with the next one. -/
def joinContinued : List (List Char) → List (List Char)
  | [] => []
  | line :: lines =>
    if continues line then
      match joinContinued lines with
      | [] => [line.dropLast]
      | next :: rest => (line.dropLast ++ next) :: rest
    else line :: joinContinued lines

/-- The logical lines of a text. -/
def logicalLines (text : String) : List (List Char) := joinContinued (physicalLines text)

/-- A line without the backslash by which it goes on. -/
def uncontinued (line : List Char) : List Char :=
  if continues line then line.dropLast else line

/-- The lines of a text, each without the backslash by which it goes on. -/
def codeLines (text : String) : List String :=
  (physicalLines text).map fun line => String.ofList (uncontinued line)

/-- Lines that stand one below the other. -/
theorem physicalLines_lines {first : String} {rest : List String}
    (lines : ∀ s ∈ first :: rest, OneLine s) :
    physicalLines ("\n".intercalate (first :: rest)) = (first :: rest).map String.toList := by
  induction rest generalizing first with
  | nil =>
    rw [String.intercalate_singleton]
    exact List.splitOn_eq_singleton (lines first List.mem_cons_self)
  | cons second rest ih =>
    have others := ih fun s hs => lines s (List.mem_cons_of_mem _ hs)
    rw [physicalLines] at others ⊢
    rw [String.intercalate_cons_cons, splitOn_append, others,
      List.splitOn_eq_singleton (lines first List.mem_cons_self)]
    rfl

/-- Lines that are joined by backslashes. -/
theorem physicalLines_continued {front : List String} {last : String}
    (lines : ∀ s ∈ front ++ [last], OneLine s) :
    physicalLines (continued (front ++ [last])) =
      front.map (fun s => (s ++ "\\").toList) ++ [last.toList] := by
  induction front with
  | nil =>
    rw [List.nil_append, continued, String.intercalate_singleton]
    exact List.splitOn_eq_singleton (lines last (by simp))
  | cons first front ih =>
    obtain ⟨line, lines⟩ := List.forall_mem_cons.mp lines
    have more : continued (first :: (front ++ [last])) =
        first ++ "\\\n" ++ continued (front ++ [last]) := by
      obtain ⟨second, rest, same⟩ := List.exists_cons_of_ne_nil (List.concat_ne_nil last front)
      rw [same, continued, String.intercalate_cons_cons, continued]
    rw [List.cons_append, more, physicalLines, splitOn_continued line, ← physicalLines, ih lines]
    rfl

theorem uncontinued_backslash (s : String) : uncontinued (s ++ "\\").toList = s.toList := by
  have more : continues (s ++ "\\").toList = true := by simp [continues]
  rw [uncontinued, if_pos more, String.toList_append]
  exact List.dropLast_concat

theorem uncontinued_of_wholeLine {s : String} (h : WholeLine s) :
    uncontinued s.toList = s.toList := by
  rw [uncontinued, if_neg (by simp [h.2])]

/-- A line above others. -/
theorem physicalLines_cons {s : String} (line : OneLine s) (text : String) :
    physicalLines (s ++ "\n" ++ text) = s.toList :: physicalLines text := by
  rw [physicalLines, splitOn_append, List.splitOn_eq_singleton line]
  rfl

theorem codeLines_cons {s : String} (whole : WholeLine s) (text : String) :
    codeLines (s ++ "\n" ++ text) = s :: codeLines text := by
  rw [codeLines, physicalLines_cons whole.1, List.map_cons, uncontinued_of_wholeLine whole,
    String.ofList_toList, codeLines]

theorem codeLines_lines {first : String} {rest : List String}
    (lines : ∀ s ∈ first :: rest, WholeLine s) :
    codeLines ("\n".intercalate (first :: rest)) = first :: rest := by
  rw [codeLines, physicalLines_lines fun s hs => (lines s hs).1, List.map_map]
  refine (List.map_congr_left fun s hs => ?_).trans (List.map_id _)
  rw [Function.comp, uncontinued_of_wholeLine (lines s hs), String.ofList_toList, id]

section Continued

variable {front : List String} {last : String}

theorem codeLines_continued (lines : ∀ s ∈ front ++ [last], OneLine s) (whole : WholeLine last) :
    codeLines (continued (front ++ [last])) = front ++ [last] := by
  have same : (fun s : String => String.ofList (uncontinued (s ++ "\\").toList)) = id := by
    funext s
    rw [uncontinued_backslash, String.ofList_toList, id]
  rw [codeLines, physicalLines_continued lines, List.map_append, List.map_map, Function.comp_def,
    same, List.map_id, List.map_singleton, uncontinued_of_wholeLine whole, String.ofList_toList]

/-- Lines that go on and the last one are joined to one line. -/
theorem joinContinued_front (whole : continues last.toList = false) :
    joinContinued (front.map (fun s => (s ++ "\\").toList) ++ [last.toList]) =
      [(front ++ [last]).flatMap String.toList] := by
  induction front with
  | nil =>
    rw [List.map_nil, List.nil_append, joinContinued, if_neg (by simp [whole])]
    simp [joinContinued]
  | cons first front ih =>
    have more : continues (first ++ "\\").toList = true := by simp [continues]
    have dropped : (first ++ "\\").toList.dropLast = first.toList := by
      rw [String.toList_append]
      exact List.dropLast_concat
    rw [List.map_cons, List.cons_append, joinContinued, if_pos more, ih, dropped]
    rfl

/-- A text of two logical lines: a line, and below it lines that all go on but the last one. -/
structure OneDirective (text : String) : Prop where
  continued : ∀ line ∈ (physicalLines text).tail.dropLast, continues line = true
  logical : ∃ size definition, logicalLines text = [size, definition] ∧
    "#define ".toList <+: definition

theorem oneDirective {size : String} (announced : WholeLine size)
    (lines : ∀ s ∈ front ++ [last], OneLine s) (whole : WholeLine last)
    (definition : "#define ".toList <+: (front ++ [last]).flatMap String.toList) :
    OneDirective (size ++ "\n" ++ continued (front ++ [last])) := by
  have physical : physicalLines (size ++ "\n" ++ Emit.continued (front ++ [last])) =
      size.toList :: (front.map (fun s => (s ++ "\\").toList) ++ [last.toList]) := by
    rw [physicalLines_cons announced.1, physicalLines_continued lines]
  constructor
  case continued =>
    rw [physical, List.tail_cons, List.dropLast_concat, List.forall_mem_map]
    intro s _
    simp [continues]
  case logical =>
    refine ⟨size.toList, _, ?_, definition⟩
    rw [logicalLines, physical, joinContinued, if_neg (by simp [announced.2]),
      joinContinued_front whole.2]

end Continued

/-! ## Reading answers -/

/-- What a line selects: a constant, or every other value. -/
def selector? (line : String) : Option (Option String) :=
  let code := line.toList.dropWhile (· = ' ')
  if code = "default:".toList then some none
  else
    match after? "case ".toList code with
    | some rest =>
      if rest.getLast? = some ':' then some (some (String.ofList rest.dropLast)) else none
    | none => none

/-- The text of the first literal in a line. -/
def literal? (line : String) : Option String :=
  match line.toList.dropWhile (· ≠ '"') with
  | [] => none
  | _ :: rest =>
    if '"' ∈ rest then some (String.ofList (rest.takeWhile (· ≠ '"'))) else none

/-- What lines select, in order, each with the literal in the line after it. -/
def answersFrom : List String → List (Option String × Option String)
  | [] => []
  | line :: lines =>
    match selector? line with
    | some selected => (selected, lines.head?.bind literal?) :: answersFrom lines
    | none => answersFrom lines

/-- The answers that a text gives. -/
def answers (text : String) : List (Option String × Option String) := answersFrom (codeLines text)

/-- The answers of a table: the label of each entry, and the one for all other values. -/
def tableAnswers (t : LookupTable) : List (Option String × Option String) :=
  t.entries.map (fun e => (some e.representative.name, some e.label)) ++ [(none, some unknownLabel)]

theorem toList_indent (n : Nat) (line : String) :
    (indent n line).toList = List.replicate (4 * n) ' ' ++ line.toList := by
  rw [indent, String.toList_append, String.toList_ofList]

/-- Blanks before a line do not matter. -/
theorem selector?_indent (n : Nat) (line : String) :
    selector? (indent n line) = selector? line := by
  have blank : ∀ c ∈ List.replicate (4 * n) ' ', (c = ' ' : Bool) = true := by
    intro c hc
    rw [List.eq_of_mem_replicate hc]
    rfl
  rw [selector?, toList_indent, List.dropWhile_append_of_pos blank, selector?]

theorem selector?_case (s : String) : selector? s!"case {s}:" = some (some s) := by
  have code : (s!"case {s}:").toList = "case ".toList ++ (s.toList ++ [':']) := by
    simp [toString]
  have solid : ("case ".toList ++ (s.toList ++ [':'])).dropWhile (· = ' ') =
      "case ".toList ++ (s.toList ++ [':']) := rfl
  have other : "case ".toList ++ (s.toList ++ [':']) ≠ "default:".toList := by simp
  rw [selector?, code, solid, if_neg other, after?_eq_some_iff.mpr rfl]
  simp

/-- A line that does not begin as a selector does. -/
theorem selector?_other {line : String} (h : ∀ c ∈ line.toList.head?, c ∉ [' ', 'c', 'd']) :
    selector? line = none := by
  have solid : line.toList.dropWhile (· = ' ') = line.toList := by
    refine dropWhile_stop fun c hc => decide_eq_false ?_
    rintro rfl
    exact h ' ' hc (by decide)
  have noDefault : line.toList ≠ "default:".toList := by
    intro same
    exact h 'd' (by rw [same]; rfl) (by decide)
  have noCase : after? "case ".toList line.toList = none := by
    refine if_neg fun front => ?_
    obtain ⟨rest, same⟩ := List.isPrefixOf_iff_prefix.mp front
    exact h 'c' (by rw [← same]; rfl) (by decide)
  rw [selector?, solid, if_neg noDefault, noCase]

/-- A literal is read up to the next quote. -/
theorem literal?_between {front label : String} (hf : '"' ∉ front.toList)
    (hl : '"' ∉ label.toList) (back : String) :
    literal? (front ++ "\"" ++ label ++ "\"" ++ back) = some label := by
  have line : (front ++ "\"" ++ label ++ "\"" ++ back).toList =
      front.toList ++ '"' :: (label.toList ++ '"' :: back.toList) := by
    simp
  rw [literal?, line, dropWhile_ne hf]
  dsimp only
  rw [if_pos (by simp), takeWhile_ne hl, String.ofList_toList]

theorem literal?_indent (n : Nat) {front label : String} (hf : '"' ∉ front.toList)
    (hl : '"' ∉ label.toList) (back : String) :
    literal? (indent n (front ++ "\"" ++ label ++ "\"" ++ back)) = some label := by
  have outside : '"' ∉ (indent n front).toList := by
    rw [toList_indent, List.mem_append, List.mem_replicate]
    simp [hf]
  have line : indent n (front ++ "\"" ++ label ++ "\"" ++ back) =
      indent n front ++ "\"" ++ label ++ "\"" ++ back := by
    simp only [indent, String.append_assoc]
  rw [line, literal?_between outside hl]

/-- Lines that give a label: they select nothing, and hold the label as their literal. -/
structure GivesLabel (answer : String → String) : Prop where
  other : ∀ label, selector? (answer label) = none
  literal : ∀ label, '"' ∉ label.toList → literal? (answer label) = some label

theorem givesLabel {answer : String → String} {front back : String}
    (form : ∀ label, answer label = indent 2 (front ++ "\"" ++ label ++ "\"" ++ back))
    (begins : ∃ c, front.toList.head? = some c ∧ c ∉ [' ', 'c', 'd'])
    (hf : '"' ∉ front.toList) : GivesLabel answer := by
  obtain ⟨c, first, other⟩ := begins
  constructor
  case other =>
    intro label
    rw [form, selector?_indent]
    refine selector?_other fun d hd => ?_
    have same : (front ++ "\"" ++ label ++ "\"" ++ back).toList.head? = some c := by
      simp [first]
    obtain rfl := Option.some.inj (hd.symm.trans same)
    exact other
  case literal =>
    intro label hl
    rw [form]
    exact literal?_indent 2 hf hl back

theorem answersFrom_other {line : String} (h : selector? line = none) (lines : List String) :
    answersFrom (line :: lines) = answersFrom lines := by
  rw [answersFrom, h]

theorem answersFrom_others {front : List String} (h : ∀ line ∈ front, selector? line = none)
    (lines : List String) : answersFrom (front ++ lines) = answersFrom lines := by
  induction front with
  | nil => rfl
  | cons line front ih =>
    obtain ⟨first, others⟩ := List.forall_mem_cons.mp h
    rw [List.cons_append, answersFrom_other first, ih others]

/-! ## The branches of a table -/

section Branches

/- The line that gives a label, and the lines after it. -/
variable {answer : String → String} {more : List String}

/-- A branch selects what its first line does, and answers the label in the next one. -/
theorem answersFrom_branch (gives : GivesLabel answer)
    (rest : ∀ line ∈ more, selector? line = none) {selector label : String}
    {selected : Option String} (selects : selector? selector = some selected)
    (quotes : '"' ∉ label.toList) (lines : List String) :
    answersFrom (indent 1 selector :: answer label :: (more ++ lines)) =
      (selected, some label) :: answersFrom lines := by
  rw [answersFrom, selector?_indent, selects]
  dsimp only
  rw [List.head?_cons, Option.bind_some, gives.literal label quotes,
    answersFrom_other (gives.other label), answersFrom_others rest]

/-- The branches of entries, one for each. -/
theorem answersFrom_branches (gives : GivesLabel answer)
    (rest : ∀ line ∈ more, selector? line = none) {es : List Entry}
    (quotes : ∀ e ∈ es, '"' ∉ e.label.toList) (lines : List String) :
    answersFrom (es.flatMap (fun e =>
        indent 1 s!"case {e.representative.name}:" :: answer e.label :: more) ++ lines) =
      es.map (fun e => (some e.representative.name, some e.label)) ++ answersFrom lines := by
  induction es with
  | nil => rfl
  | cons e es ih =>
    obtain ⟨first, others⟩ := List.forall_mem_cons.mp quotes
    rw [List.flatMap_cons, List.append_assoc, List.cons_append, List.cons_append,
      answersFrom_branch gives rest (selector?_case _) first, ih others]
    rfl

/-- The branches of a table and its default, between lines that select nothing. -/
theorem answersFrom_table (gives : GivesLabel answer)
    (rest : ∀ line ∈ more, selector? line = none) {t : LookupTable}
    (quotes : ∀ e ∈ t.entries, '"' ∉ e.label.toList) {front back : List String}
    (before : ∀ line ∈ front, selector? line = none)
    (after : ∀ line ∈ back, selector? line = none) :
    answersFrom (front ++ (t.entries.flatMap (fun e =>
        indent 1 s!"case {e.representative.name}:" :: answer e.label :: more) ++
          indent 1 "default:" :: answer unknownLabel :: (more ++ back))) = tableAnswers t := by
  have closed : answersFrom back = [] := by
    have none := answersFrom_others after []
    rwa [List.append_nil] at none
  rw [answersFrom_others before, answersFrom_branches gives rest quotes,
    answersFrom_branch gives rest (by rfl) (by decide), closed, tableAnswers]

end Branches

section Table

variable {t : LookupTable}

theorem selector?_maxLengthLine (t : LookupTable) : selector? (maxLengthLine t) = none := by
  refine selector?_other ?_
  rw [maxLengthLine, sizeLine_eq]
  simp

/-- The lines of the macro give the answers of the table. -/
theorem answersFrom_macroLines (quotes : ∀ e ∈ t.entries, '"' ∉ e.label.toList) :
    answersFrom (maxLengthLine t :: macroLines t) = tableAnswers t := by
  have copied (label : String) : indent 2 s!"strcpy(buf, \"{label}\");" =
      indent 2 ("strcpy(buf, " ++ "\"" ++ label ++ "\"" ++ ");") := by
    simp [toString, String.append_assoc]
  have gives := givesLabel copied ⟨'s', rfl, by decide⟩ (by decide)
  have left : ∀ line ∈ [indent 2 "break;"], selector? line = none := by decide
  have ends : ∀ line ∈ [indent 1 "\x7d", "\x7d while (0)"], selector? line = none := by decide
  have before : ∀ line ∈ [maxLengthLine t, s!"#define {upper t.name}_PARSER(n, buf) do \x7b",
      indent 1 "switch (n) \x7b"], selector? line = none := by
    simp only [List.forall_mem_cons]
    exact ⟨selector?_maxLengthLine t, selector?_other (by simp [toString]), by decide, nofun⟩
  have table := answersFrom_table gives left quotes before ends
  rw [macroLines, List.append_assoc]
  exact table

/-- The lines of the function give the answers of the table. -/
theorem answersFrom_inlineLines (quotes : ∀ e ∈ t.entries, '"' ∉ e.label.toList)
    (type : IntType) : answersFrom (maxLengthLine t :: inlineLines t type) = tableAnswers t := by
  have returned (label : String) : indent 2 s!"return \"{label}\";" =
      indent 2 ("return " ++ "\"" ++ label ++ "\"" ++ ";") := by
    simp [toString, String.append_assoc]
  have gives := givesLabel returned ⟨'r', rfl, by decide⟩ (by decide)
  have ends : ∀ line ∈ [indent 1 "\x7d", "\x7d"], selector? line = none := by decide
  have before : ∀ line ∈ [maxLengthLine t,
      s!"static inline const char *{lower t.name}_parser({type.spelling} n) \x7b",
      indent 1 "switch (n) \x7b"], selector? line = none := by
    simp only [List.forall_mem_cons]
    exact ⟨selector?_maxLengthLine t, selector?_other (by simp [toString]), by decide, nofun⟩
  have table := answersFrom_table gives (List.forall_mem_nil _) quotes before ends
  rw [inlineLines, List.append_assoc]
  exact table

/-! ## The forms of a table -/

theorem oneLine_upper {s : String} (h : OneLine s) : OneLine (upper s) := by
  rw [OneLine, upper, String.toList_ofList]
  exact newline_not_mem_upperChars h

theorem oneLine_lower {s : String} (h : OneLine s) : OneLine (lower s) := by
  rw [OneLine, lower, String.toList_ofList]
  exact newline_not_mem_lowerFrom h []

theorem wholeLine_maxLengthLine (name : OneLine t.name) : WholeLine (maxLengthLine t) :=
  wholeLine_sizeLine _ (oneLine_upper name) (by decide)

/-- The lines of the macro form. -/
theorem codeLines_renderMacro (h : t.entries ≠ []) (name : OneLine t.name)
    (texts : ∀ e ∈ t.entries, OneLine e.label ∧ OneLine e.representative.name) :
    codeLines (renderMacro t) = maxLengthLine t :: macroLines t := by
  obtain ⟨body, indented, lines⟩ := exists_macroLines_eq texts
  have own : OneLine (upper t.name ++ "_PARSER") :=
    oneLine_append.mpr ⟨oneLine_upper name, by decide⟩
  rw [renderMacro, if_neg (by simpa using h), codeLines_cons (wholeLine_maxLengthLine name), lines,
    ← List.cons_append,
    codeLines_continued (oneLine_definition own (by decide) indented) (by decide)]

/-- The lines of the function form. -/
theorem codeLines_renderInline (h : t.entries ≠ []) (name : OneLine t.name)
    (texts : ∀ e ∈ t.entries, OneLine e.label ∧ OneLine e.representative.name) (type : IntType) :
    codeLines (renderInline t type) = maxLengthLine t :: inlineLines t type := by
  obtain ⟨body, indented, lines⟩ := exists_inlineLines_eq texts type
  have own : OneLine (lower t.name ++ "_parser") :=
    oneLine_append.mpr ⟨oneLine_lower name, by decide⟩
  rw [renderInline, if_neg (by simpa using h), codeLines_lines]
  rw [List.forall_mem_cons, lines]
  exact ⟨wholeLine_maxLengthLine name,
    wholeLine_function own (wholeLine_params type) (by simp) indented⟩

/-- A macro below the line that announces its size is one directive. -/
theorem oneDirective_definition {size name params : String} {body : List String}
    (announced : WholeLine size) (hn : OneLine name) (hp : OneLine params)
    (hb : ∀ s ∈ body, Indented s) :
    OneDirective (size ++ "\n" ++ continued
      (("#define " ++ name ++ "(" ++ params) :: (body ++ ["\x7d while (0)"]))) := by
  rw [← List.cons_append]
  refine oneDirective announced (oneLine_definition hn hp hb) (by decide) ?_
  rw [List.cons_append, List.flatMap_cons]
  simp only [String.toList_append, List.append_assoc]
  exact List.prefix_append _ _

end Table

/-- The two forms of a lookup answer the same, and a macro is one directive. Let the texts of a
table fit in one line each, and no label hold a quote, as is the case for identifiers. Then what
the lines of either form select, with the label in the line after, are the entries in order and
the default; both announce the same size; and of a macro for labels or for flags all lines but
the last go on, so it is one logical line. -/
theorem forms_answer_alike {t : LookupTable} (h : t.entries ≠ []) (name : OneLine t.name)
    (texts : ∀ e ∈ t.entries, OneLine e.label ∧ OneLine e.representative.name)
    (quotes : ∀ e ∈ t.entries, '"' ∉ e.label.toList) (type : IntType) :
    (answers (renderMacro t) = tableAnswers t ∧ answers (renderInline t type) = tableAnswers t) ∧
    (Announces (renderMacro t) s!"{upper t.name}_MAX_LEN" t.maxLabelLength ∧
      Announces (renderInline t type) s!"{upper t.name}_MAX_LEN" t.maxLabelLength) ∧
    OneDirective (renderMacro t) ∧ OneDirective (renderMask t none) := by
  have own := oneLine_upper name
  refine ⟨⟨?_, ?_⟩, ⟨renderMacro_announces h, renderInline_announces h type⟩, ?_, ?_⟩
  · rw [answers, codeLines_renderMacro h name texts, answersFrom_macroLines quotes]
  · rw [answers, codeLines_renderInline h name texts, answersFrom_inlineLines quotes]
  · obtain ⟨body, indented, lines⟩ := exists_macroLines_eq texts
    rw [renderMacro, if_neg (by simpa using h), lines]
    exact oneDirective_definition (wholeLine_maxLengthLine name)
      (oneLine_append.mpr ⟨own, by decide⟩) (by decide) indented
  · rw [renderMask, if_neg (by simpa using h), maskMacroLines_eq]
    exact oneDirective_definition (wholeLine_sizeLine _ own (by decide))
      (oneLine_append.mpr ⟨oneLine_append.mpr ⟨own, by decide⟩, by decide⟩) (by decide)
      (indented_bodyLines (wholeLine_maskStatements texts))

theorem forms_answer_alike_rights :
    rights.entries ≠ [] ∧ OneLine rights.name ∧
    (∀ e ∈ rights.entries, OneLine e.label ∧ OneLine e.representative.name) ∧
    (∀ e ∈ rights.entries, '"' ∉ e.label.toList) ∧
    answers (renderMacro rights) = answers (renderInline rights ⟨8, false⟩) ∧
    answers (renderMacro rights) =
      [(some "NONE", some "NONE"), (some "READ", some "READ"), (some "WRITE", some "WRITE"),
        (some "BOTH", some "BOTH"), (none, some "Unknown")] ∧
    OneDirective (renderMacro rights) := by
  have nonempty : rights.entries ≠ [] := by decide
  have name : OneLine rights.name := by decide
  have texts : ∀ e ∈ rights.entries, OneLine e.label ∧ OneLine e.representative.name := by decide
  have quotes : ∀ e ∈ rights.entries, '"' ∉ e.label.toList := by decide
  obtain ⟨⟨copied, returned⟩, -, directive, -⟩ :=
    forms_answer_alike nonempty name texts quotes ⟨8, false⟩
  exact ⟨nonempty, name, texts, quotes, copied.trans returned.symm, copied, directive⟩

end ConstLookup.Emit
