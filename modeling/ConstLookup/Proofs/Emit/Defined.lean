import ConstLookup.Emit.Header
import ConstLookup.Proofs.Text.Digits
import ConstLookup.Proofs.Text.Lines
import Mathlib.Data.Bool.AllAny
import Mathlib.Data.List.Nodup

/-!
  The names that a generated header defines, read off its lines (`definedIn_renderHeader`). A line
  that ends in a backslash goes on in the next one, which then defines nothing by itself. Texts are
  read piece by piece: what `a ++ "\n" ++ b` defines is what `a` defines and then what `b` defines.
-/

namespace ConstLookup.Emit

open ConstLookup.Text

/-! ## Reading lines -/

/-- What stands before the name in a line that defines it. -/
def definers : List String := ["#define ", "static inline const char *"]

/-- The name that a line defines, up to its parameters or its text. -/
def defined? (line : List Char) : Option String :=
  (definers.findSome? fun d => after? d.toList line).map fun rest =>
    String.ofList (rest.takeWhile fun c => c ≠ '(' ∧ c ≠ ' ')

/-- The line goes on in the next one. -/
def continues (line : List Char) : Bool := line.getLast? = some '\\'

/-- The names that lines define; the flag says that the first one goes on from a line before. -/
def definedFrom (goesOn : Bool) : List (List Char) → List String
  | [] => []
  | line :: lines =>
    (if goesOn then [] else (defined? line).toList) ++ definedFrom (continues line) lines

/-- The names that a text defines, from the first line to the last. -/
def definedIn (text : String) : List String := definedFrom false (text.toList.splitOn '\n')

/-- The text of a line has no line feed. -/
def OneLine (s : String) : Prop := '\n' ∉ s.toList

instance (s : String) : Decidable (OneLine s) := inferInstanceAs (Decidable (_ ∉ _))

@[simp] theorem oneLine_append {a b : String} : OneLine (a ++ b) ↔ OneLine a ∧ OneLine b := by
  simp [OneLine]

/-- The text is one line and does not go on in the next one. -/
def WholeLine (s : String) : Prop := OneLine s ∧ continues s.toList = false

instance (s : String) : Decidable (WholeLine s) := inferInstanceAs (Decidable (_ ∧ _))

theorem WholeLine.after {a b : String} (hb : WholeLine b) (nonempty : b ≠ "")
    (ha : OneLine a) : WholeLine (a ++ b) := by
  refine ⟨oneLine_append.mpr ⟨ha, hb.1⟩, ?_⟩
  rw [String.toList_append, continues, List.getLast?_append_of_ne_nil _ (by simpa using nonempty)]
  exact hb.2

theorem WholeLine.indent {s : String} (h : WholeLine s) (n : Nat) : WholeLine (indent n s) := by
  have blanks : WholeLine (String.ofList (List.replicate (4 * n) ' ')) := by
    constructor
    · simp [OneLine, List.mem_replicate]
    · cases n <;> simp [continues, List.getLast?_replicate, Nat.mul_succ]
  by_cases empty : s = ""
  · simpa [Emit.indent, empty] using blanks
  · exact h.after empty blanks.1

/-- Lines that define the given names, the last of which does not go on. -/
structure Reads (goesOn : Bool) (text : String) (names : List String) : Prop where
  names_eq : definedFrom goesOn (text.toList.splitOn '\n') = names
  ended : ∀ line ∈ (text.toList.splitOn '\n').getLast?, continues line = false

/-- A whole line that starts with a blank. -/
def Indented (s : String) : Prop := WholeLine s ∧ s.toList.head? = some ' '

instance (s : String) : Decidable (Indented s) := inferInstanceAs (Decidable (_ ∧ _))

theorem WholeLine.indented {s : String} (h : WholeLine s) (n : Nat) : Indented (Emit.indent (n + 1) s) :=
  ⟨h.indent (n + 1), by simp [Emit.indent, Nat.mul_succ, List.replicate_succ]⟩

variable {goesOn : Bool}

theorem definedFrom_append {as bs : List (List Char)} (nonempty : as ≠ [])
    (ended : ∀ line ∈ as.getLast?, continues line = false) :
    definedFrom goesOn (as ++ bs) = definedFrom goesOn as ++ definedFrom false bs := by
  induction as generalizing goesOn with
  | nil => exact absurd rfl nonempty
  | cons a as ih =>
    cases as with
    | nil => simp [definedFrom, ended a rfl]
    | cons a' as =>
      have rest := @ih (continues a) (List.cons_ne_nil _ _) fun line h =>
        ended line (by rwa [List.getLast?_cons_cons])
      rw [List.cons_append, definedFrom, rest, definedFrom.eq_def goesOn (a :: a' :: as),
        List.append_assoc]

theorem splitOn_append (a b : String) :
    (a ++ "\n" ++ b).toList.splitOn '\n' = a.toList.splitOn '\n' ++ b.toList.splitOn '\n' := by
  rw [String.toList_append, String.toList_append, List.append_assoc]
  exact List.splitOn_append_cons_self _ _

theorem Reads.append {a b : String} {xs ys : List String} (ha : Reads goesOn a xs)
    (hb : Reads false b ys) : Reads goesOn (a ++ "\n" ++ b) (xs ++ ys) := by
  constructor
  case names_eq =>
    rw [splitOn_append, definedFrom_append (List.splitOn_ne_nil _ _) ha.ended, ha.names_eq,
      hb.names_eq]
  case ended =>
    rw [splitOn_append, List.getLast?_append_of_ne_nil _ (List.splitOn_ne_nil _ _)]
    exact hb.ended

theorem reads_line (goesOn : Bool) {s : String} (h : WholeLine s) :
    Reads goesOn s (if goesOn then [] else (defined? s.toList).toList) := by
  constructor
  case names_eq => rw [List.splitOn_eq_singleton h.1, definedFrom, definedFrom, List.append_nil]
  case ended =>
    rw [List.splitOn_eq_singleton h.1]
    rintro _ ⟨⟩
    exact h.2

/-- The lines of a text whose first line goes on. -/
theorem splitOn_continued {s : String} (line : OneLine s) (text : String) :
    (s ++ "\\\n" ++ text).toList.splitOn '\n' =
      (s ++ "\\").toList :: text.toList.splitOn '\n' := by
  have first : OneLine (s ++ "\\") := oneLine_append.mpr ⟨line, by decide⟩
  have parts : s ++ "\\\n" ++ text = s ++ "\\" ++ "\n" ++ text := by
    rw [show "\\\n" = "\\" ++ "\n" from rfl]
    simp only [String.append_assoc]
  rw [parts, splitOn_append, List.splitOn_eq_singleton first, List.singleton_append]

/-- A line that goes on, and what follows it. -/
theorem Reads.continued {s text : String} {names : List String} (line : OneLine s)
    (h : Reads true text names) :
    Reads goesOn (s ++ "\\\n" ++ text)
      ((if goesOn then [] else (defined? (s ++ "\\").toList).toList) ++ names) := by
  have more : continues (s ++ "\\").toList = true := by simp [continues]
  constructor
  case names_eq => rw [splitOn_continued line, definedFrom, more, h.names_eq]
  case ended =>
    rw [splitOn_continued line, List.getLast?_cons_of_ne_nil (List.splitOn_ne_nil _ _)]
    exact h.ended

/-- What lines define that stand one below the other. -/
theorem reads_lines {first : String} {rest : List String}
    (lines : ∀ s ∈ first :: rest, WholeLine s) :
    Reads false ("\n".intercalate (first :: rest))
      ((first :: rest).flatMap fun s => (defined? s.toList).toList) := by
  induction rest generalizing first with
  | nil => simpa using reads_line false (lines first List.mem_cons_self)
  | cons second rest ih =>
    rw [String.intercalate_cons_cons, List.flatMap_cons]
    exact (reads_line false (lines first List.mem_cons_self)).append
      (ih fun s hs => lines s (List.mem_cons_of_mem _ hs))

/-- One logical line defines what its first line defines. -/
theorem reads_continued (goesOn : Bool) {first : String} {rest : List String} (more : rest ≠ [])
    (lines : ∀ s ∈ first :: rest, OneLine s) (ended : ∀ s ∈ rest.getLast?, WholeLine s) :
    Reads goesOn (Emit.continued (first :: rest))
      (if goesOn then [] else (defined? (first ++ "\\").toList).toList) := by
  induction rest generalizing first goesOn with
  | nil => exact absurd rfl more
  | cons second rest ih =>
    have others : ∀ s ∈ second :: rest, OneLine s := fun s hs =>
      lines s (List.mem_cons_of_mem _ hs)
    have tail : Reads true ("\\\n".intercalate (second :: rest)) [] := by
      cases rest with
      | nil => simpa using reads_line true (ended second rfl)
      | cons third rest =>
        have last : ∀ s ∈ (third :: rest).getLast?, WholeLine s := fun s hs =>
          ended s (by rwa [List.getLast?_cons_cons])
        exact ih true (List.cons_ne_nil _ _) others last
    rw [Emit.continued, String.intercalate_cons_cons]
    simpa using @Reads.continued goesOn _ _ _ (lines first List.mem_cons_self) tail

/-! ## Lines that define a name -/

/-- A line that does not begin as a definition does. -/
theorem defined?_eq_none {cs : List Char} (h : ∀ c ∈ cs.head?, c ≠ '#' ∧ c ≠ 's') :
    defined? cs = none := by
  have none (d : String) (hd : d ∈ definers) : after? d.toList cs = none := by
    refine if_neg fun front => ?_
    rw [List.isPrefixOf_iff_prefix] at front
    obtain ⟨rest, rfl⟩ := front
    simp only [definers, List.mem_cons, List.not_mem_nil, or_false] at hd
    rcases hd with rfl | rfl
    · exact (h '#' rfl).1 rfl
    · exact (h 's' rfl).2 rfl
  rw [defined?, List.findSome?_eq_none_iff.mpr none]
  rfl

/-- A text that can stand in a name: it is on one line, and the name goes on after it. -/
def NamePart (s : String) : Prop := OneLine s ∧ ∀ c ∈ s.toList, c ≠ '(' ∧ c ≠ ' '

instance (s : String) : Decidable (NamePart s) :=
  decidable_of_iff (OneLine s ∧ s.toList.all (fun c => c ≠ '(' ∧ c ≠ ' ') = true)
    (and_congr_right fun _ => List.all_iff_forall_prop)

theorem NamePart.append {a b : String} (ha : NamePart a) (hb : NamePart b) : NamePart (a ++ b) := by
  refine ⟨oneLine_append.mpr ⟨ha.1, hb.1⟩, fun c hc => ?_⟩
  rw [String.toList_append, List.mem_append] at hc
  exact hc.elim (ha.2 c) (hb.2 c)

/-- A name is read off the line that defines it. -/
theorem defined?_eq_some {definer name stop : String} (hd : definer ∈ definers)
    (hn : NamePart name) (hs : stop ∈ ["(", " "]) (rest : String) :
    defined? (definer ++ name ++ stop ++ rest).toList = some name := by
  have found (cs : List Char) : definers.findSome? (fun d => after? d.toList
      (definer.toList ++ cs)) = some cs := by
    simp only [definers, List.mem_cons, List.not_mem_nil, or_false] at hd
    rcases hd with rfl | rfl
    · rw [definers, List.findSome?_cons, after?_eq_some_iff.mpr rfl]
    · rw [definers, List.findSome?_cons, List.findSome?_cons, after?_eq_some_iff.mpr rfl]
      rfl
  have kept : (name.toList ++ (stop ++ rest).toList).takeWhile (fun c => c ≠ '(' ∧ c ≠ ' ') =
      name.toList := by
    rw [List.takeWhile_append_of_pos fun c hc => by simpa using hn.2 c hc]
    simp only [List.mem_cons, List.not_mem_nil, or_false] at hs
    rcases hs with rfl | rfl <;> simp
  rw [String.append_assoc, String.append_assoc, String.toList_append, String.toList_append,
    defined?, found, Option.map_some, kept, String.ofList_toList]

/-! ## The names that a table defines -/

/-- What the names that belong to one parser are made of. -/
structure Stem where
  upper : String
  lower : String
  /-- The parser is a function. -/
  inline : Bool

/-- The names of a parser and of the size of its buffer. -/
def Stem.names (s : Stem) : List String :=
  [s.upper ++ "_MAX_LEN", if s.inline then s.lower ++ "_parser" else s.upper ++ "_PARSER"]

/-- The stem of the parser for the values of a table. -/
def valueStem (o : Options) (t : LookupTable) : Stem :=
  ⟨upper t.name, lower t.name, (o.inlineType t).isSome⟩

/-- The stem of the flag writer of a table. -/
def maskStem (o : Options) (t : LookupTable) : Stem :=
  ⟨upper t.name ++ "_MASK", lower t.name ++ "_mask", (o.inlineType t).isSome⟩

/-- The stems of what is generated for a table. -/
def stems (o : Options) (t : LookupTable) : List Stem :=
  if t.entries.isEmpty then []
  else valueStem o t :: if t.isMask then [maskStem o t] else []

/-- The texts of a table fit in one line, and those of its names in a name. -/
structure Plain (t : LookupTable) : Prop where
  upper : NamePart (upper t.name)
  lower : NamePart (lower t.name)
  labels : ∀ e ∈ t.entries, OneLine e.label ∧ OneLine e.representative.name

section Table

variable {t : LookupTable}

theorem oneLine_numeral (n : Nat) : OneLine (toString n) := fun h => by
  have digit := isDigit_of_mem_toDigits (n := n) (by simpa [toString, Nat.repr] using h)
  exact absurd digit (by decide)

theorem sizeLine_eq (name suffix : String) (size : Nat) :
    sizeLine name suffix size =
      "#define " ++ (upper name ++ "_" ++ suffix) ++ " " ++ ("(" ++ toString size ++ ")") := by
  simp only [sizeLine, String.append_assoc]
  rfl

theorem wholeLine_sizeLine {name suffix : String} (size : Nat) (hn : OneLine (upper name))
    (hs : OneLine suffix) : WholeLine (sizeLine name suffix size) := by
  rw [sizeLine_eq]
  refine WholeLine.after (WholeLine.after (b := ")") (by decide) (by decide) ?_) (by simp) ?_
  · exact oneLine_append.mpr ⟨by decide, oneLine_numeral size⟩
  · simp only [oneLine_append]
    exact ⟨⟨by decide, ⟨hn, by decide⟩, hs⟩, by decide⟩

theorem reads_sizeLine {name suffix : String} (size : Nat) (hn : NamePart (upper name))
    (hs : NamePart suffix) :
    Reads false (sizeLine name suffix size) [upper name ++ "_" ++ suffix] := by
  have part : NamePart (upper name ++ "_" ++ suffix) := (hn.append (by decide)).append hs
  have found : defined? (sizeLine name suffix size).toList = some (upper name ++ "_" ++ suffix) := by
    rw [sizeLine_eq]
    exact defined?_eq_some (by decide) part (by decide) _
  simpa [found] using reads_line false (wholeLine_sizeLine size hn.1 hs.1)

/-- The lines of a macro with parameters. -/
theorem oneLine_definition {name params : String} {body : List String} (hn : OneLine name)
    (hp : OneLine params) (hb : ∀ s ∈ body, Indented s) :
    ∀ s ∈ ("#define " ++ name ++ "(" ++ params) :: (body ++ ["\x7d while (0)"]), OneLine s := by
  simp only [List.forall_mem_cons, List.forall_mem_append, oneLine_append]
  exact ⟨⟨⟨⟨by decide, hn⟩, by decide⟩, hp⟩, fun s hs => (hb s hs).1.1, by decide, nofun⟩

/-- A macro with parameters, the text of which goes over several lines. -/
theorem reads_macro {name params : String} {body : List String} (hn : NamePart name)
    (hp : OneLine params) (hb : ∀ s ∈ body, Indented s) :
    Reads false (continued (("#define " ++ name ++ "(" ++ params) :: (body ++ ["\x7d while (0)"])))
      [name] := by
  have found : defined? ("#define " ++ name ++ "(" ++ params ++ "\\").toList = some name := by
    rw [String.append_assoc]
    exact defined?_eq_some (by decide) hn (by decide) _
  have reads := reads_continued false (by simp) (oneLine_definition hn.1 hp hb) (by
    rw [List.getLast?_append_of_ne_nil _ (by simp)]
    rintro _ ⟨⟩
    decide)
  rw [found] at reads
  exact reads

/-- The lines of a function. -/
theorem wholeLine_function {name params : String} {body : List String} (hn : OneLine name)
    (hp : WholeLine params) (nonempty : params ≠ "") (hb : ∀ s ∈ body, Indented s) :
    ∀ s ∈ ("static inline const char *" ++ name ++ "(" ++ params) :: (body ++ ["\x7d"]),
      WholeLine s := by
  have head : WholeLine ("static inline const char *" ++ name ++ "(" ++ params) := by
    refine hp.after nonempty ?_
    simp only [oneLine_append]
    exact ⟨⟨by decide, hn⟩, by decide⟩
  simp only [List.forall_mem_cons, List.forall_mem_append]
  exact ⟨head, fun s hs => (hb s hs).1, by decide, nofun⟩

/-- A function, the text of which goes over several lines. -/
theorem reads_function {name params : String} {body : List String} (hn : NamePart name)
    (hp : WholeLine params) (nonempty : params ≠ "")
    (hb : ∀ s ∈ body, Indented s) :
    Reads false ("\n".intercalate
      (("static inline const char *" ++ name ++ "(" ++ params) :: (body ++ ["\x7d"]))) [name] := by
  have found : defined? ("static inline const char *" ++ name ++ "(" ++ params).toList =
      some name := defined?_eq_some (by decide) hn (by decide) _
  have others : body.flatMap (fun s => (defined? s.toList).toList) = [] := by
    refine List.flatMap_eq_nil_iff.mpr fun s hs => ?_
    rw [defined?_eq_none (by simp [(hb s hs).2])]
    rfl
  have last : ["\x7d"].flatMap (fun s => (defined? s.toList).toList) = [] := by decide
  have reads := reads_lines (wholeLine_function hn.1 hp nonempty hb)
  rw [List.flatMap_cons, List.flatMap_append, found, others, last] at reads
  exact reads

/-! ## The code of a table -/

theorem indented_bodyLines {ss : List Statement} (h : ∀ s ∈ ss, ∀ l ∈ s.lines, WholeLine l) :
    ∀ l ∈ Statement.bodyLines ss, Indented l := by
  induction ss with
  | nil => nofun
  | cons s ss ih =>
    rw [Statement.bodyLines, List.forall_mem_append, List.forall_mem_map]
    exact ⟨fun l hl => WholeLine.indented (h s List.mem_cons_self l hl) 0,
      ih fun s hs => h s (List.mem_cons_of_mem _ hs)⟩

/-- The lines of a statement with a body. -/
theorem wholeLine_body {first : String} {ss : List Statement} (hf : WholeLine first)
    (h : ∀ s ∈ ss, ∀ l ∈ s.lines, WholeLine l) :
    ∀ l ∈ first :: (Statement.bodyLines ss ++ ["\x7d"]), WholeLine l := by
  simp only [List.forall_mem_cons, List.forall_mem_append]
  exact ⟨hf, fun l hl => (indented_bodyLines h l hl).1, by decide, nofun⟩

/-- A text between two others that are fixed. -/
theorem wholeLine_between {front back text : String} (hf : OneLine front)
    (hb : WholeLine back) (nonempty : back ≠ "") (ht : OneLine text) :
    WholeLine (front ++ text ++ back) :=
  hb.after nonempty (oneLine_append.mpr ⟨hf, ht⟩)

theorem wholeLine_case {name : String} (h : OneLine name) : WholeLine s!"case {name}:" :=
  wholeLine_between (by decide) (by decide) (by decide) h

theorem wholeLine_copied {label : String} (h : OneLine label) :
    WholeLine s!"strcpy(buf, \"{label}\");" :=
  wholeLine_between (by decide) (by decide) (by decide) h

theorem wholeLine_flagStatement {e : Entry} (label : OneLine e.label)
    (name : OneLine e.representative.name) : ∀ l ∈ (flagStatement e).lines, WholeLine l := by
  have first : WholeLine s!"if (((n) & ({e.representative.name})) == ({e.representative.name})) \x7b" := by
    refine WholeLine.after (by decide) (by decide) ?_
    simp only [oneLine_append]
    exact ⟨⟨⟨by decide, name⟩, by decide⟩, name⟩
  have copied : WholeLine s!"strcat(buf, \"{e.label}\");" :=
    wholeLine_between (by decide) (by decide) (by decide) label
  refine wholeLine_body first ?_
  simp only [List.forall_mem_cons, Statement.lines]
  exact ⟨⟨by decide, nofun⟩, ⟨copied, nofun⟩, nofun⟩

theorem wholeLine_maskStatements
    (h : ∀ e ∈ t.entries, OneLine e.label ∧ OneLine e.representative.name) :
    ∀ s ∈ maskStatements t, ∀ l ∈ s.lines, WholeLine l := by
  have flags : ∀ s ∈ (flagEntries t).map flagStatement, ∀ l ∈ s.lines, WholeLine l := by
    rw [List.forall_mem_map]
    intro e he
    obtain ⟨label, name⟩ := h e (List.mem_filter.mp he).1
    exact wholeLine_flagStatement label name
  simp only [maskStatements, List.forall_mem_cons]
  refine ⟨by decide, ?_, by decide, List.forall_mem_nil _⟩
  cases found : zeroEntry? t with
  | none => exact wholeLine_body (by decide) flags
  | some e =>
    have copied := wholeLine_copied (h e (List.mem_of_find?_eq_some found)).1
    have zero : ∀ l ∈ Statement.bodyLines [.copy e.label], Indented l :=
      indented_bodyLines (by
        simp only [List.forall_mem_cons, Statement.lines]
        exact ⟨⟨copied, List.forall_mem_nil _⟩, List.forall_mem_nil _⟩)
    simp only [Statement.lines, List.forall_mem_cons, List.forall_mem_append]
    exact ⟨by decide, fun l hl => (zero l hl).1, by decide,
      fun l hl => (indented_bodyLines flags l hl).1, by decide, List.forall_mem_nil _⟩

theorem indented_macroCases
    (h : ∀ e ∈ t.entries, OneLine e.label ∧ OneLine e.representative.name) :
    ∀ s ∈ t.entries.flatMap macroCase, Indented s := by
  rw [List.forall_mem_flatMap]
  intro e he
  obtain ⟨label, name⟩ := h e he
  have left : WholeLine "break;" := by decide
  simp only [macroCase, List.forall_mem_cons]
  exact ⟨(wholeLine_case name).indented 0, (wholeLine_copied label).indented 1, left.indented 1,
    nofun⟩

/-- The lines of the macro form of a table. -/
theorem exists_macroLines_eq
    (h : ∀ e ∈ t.entries, OneLine e.label ∧ OneLine e.representative.name) :
    ∃ body : List String, (∀ s ∈ body, Indented s) ∧
      macroLines t = ("#define " ++ (upper t.name ++ "_PARSER") ++ "(" ++ "n, buf) do \x7b") ::
        (body ++ ["\x7d while (0)"]) := by
  refine ⟨[indent 1 "switch (n) \x7b"] ++ t.entries.flatMap macroCase ++
    [indent 1 "default:", indent 2 s!"strcpy(buf, \"{unknownLabel}\");", indent 2 "break;",
      indent 1 "\x7d"], ?_, ?_⟩
  · simp only [List.forall_mem_append, List.forall_mem_cons]
    exact ⟨⟨⟨by decide, nofun⟩, indented_macroCases h⟩, by decide, by decide, by decide,
      by decide, nofun⟩
  · simp [macroLines, String.append_assoc, toString]

theorem reads_macroLines (h : Plain t) :
    Reads false (continued (macroLines t)) [upper t.name ++ "_PARSER"] := by
  obtain ⟨body, indented, lines⟩ := exists_macroLines_eq h.labels
  rw [lines]
  exact reads_macro (h.upper.append (by decide)) (by decide) indented

theorem indented_inlineCases
    (h : ∀ e ∈ t.entries, OneLine e.label ∧ OneLine e.representative.name) :
    ∀ s ∈ t.entries.flatMap inlineCase, Indented s := by
  rw [List.forall_mem_flatMap]
  intro e he
  obtain ⟨label, name⟩ := h e he
  have returned : WholeLine s!"return \"{e.label}\";" :=
    wholeLine_between (by decide) (by decide) (by decide) label
  simp only [inlineCase, List.forall_mem_cons]
  exact ⟨(wholeLine_case name).indented 0, returned.indented 1, nofun⟩

theorem oneLine_spelling (type : IntType) : OneLine type.spelling := by
  unfold IntType.spelling
  split
  · split <;> decide
  · split <;> simp only [oneLine_append] <;>
      exact ⟨⟨by decide, oneLine_numeral type.bits⟩, by decide⟩

/-- The lines of the function form of a table. -/
theorem exists_inlineLines_eq
    (h : ∀ e ∈ t.entries, OneLine e.label ∧ OneLine e.representative.name)
    (type : IntType) :
    ∃ body : List String, (∀ s ∈ body, Indented s) ∧
      inlineLines t type = ("static inline const char *" ++ (lower t.name ++ "_parser") ++ "(" ++
        (type.spelling ++ " n) \x7b")) :: (body ++ ["\x7d"]) := by
  refine ⟨[indent 1 "switch (n) \x7b"] ++ t.entries.flatMap inlineCase ++
    [indent 1 "default:", indent 2 s!"return \"{unknownLabel}\";", indent 1 "\x7d"], ?_, ?_⟩
  · simp only [List.forall_mem_append, List.forall_mem_cons]
    exact ⟨⟨⟨by decide, nofun⟩, indented_inlineCases h⟩, by decide, by decide, by decide, nofun⟩
  · simp [inlineLines, String.append_assoc, toString]

/-- The parameters of a function of one argument. -/
theorem wholeLine_params (type : IntType) : WholeLine (type.spelling ++ " n) \x7b") :=
  WholeLine.after (by decide) (by decide) (oneLine_spelling type)

theorem reads_inlineLines (h : Plain t) (type : IntType) :
    Reads false ("\n".intercalate (inlineLines t type)) [lower t.name ++ "_parser"] := by
  obtain ⟨body, indented, lines⟩ := exists_inlineLines_eq h.labels type
  rw [lines]
  exact reads_function (h.lower.append (by decide)) (wholeLine_params type) (by simp) indented

/-- The lines of the flag writer of a table as a macro. -/
theorem maskMacroLines_eq (t : LookupTable) :
    maskMacroLines t = ("#define " ++ (upper t.name ++ "_MASK" ++ "_PARSER") ++ "(" ++
      "n, buf) do \x7b") :: (Statement.bodyLines (maskStatements t) ++ ["\x7d while (0)"]) := by
  simp [maskMacroLines, String.append_assoc, toString]

theorem reads_maskLines (h : Plain t) :
    Reads false (continued (maskMacroLines t)) [upper t.name ++ "_MASK" ++ "_PARSER"] := by
  rw [maskMacroLines_eq]
  exact reads_macro ((h.upper.append (by decide)).append (by decide)) (by decide)
    (indented_bodyLines (wholeLine_maskStatements h.labels))

theorem reads_maskInlineLines (h : Plain t) (type : IntType) :
    Reads false ("\n".intercalate (maskInlineLines t type))
      [lower t.name ++ "_mask" ++ "_parser"] := by
  have body : ∀ s ∈ Statement.bodyLines (maskStatements t) ++ [indent 1 "return buf;"],
      Indented s := by
    simp only [List.forall_mem_append, List.forall_mem_cons]
    exact ⟨indented_bodyLines (wholeLine_maskStatements h.labels), by decide, nofun⟩
  have lines : maskInlineLines t type = ("static inline const char *" ++
      (lower t.name ++ "_mask" ++ "_parser") ++ "(" ++ (type.spelling ++ " n, char *buf) \x7b")) ::
        ((Statement.bodyLines (maskStatements t) ++ [indent 1 "return buf;"]) ++ ["\x7d"]) := by
    simp [maskInlineLines, String.append_assoc, toString]
  rw [lines]
  exact reads_function ((h.lower.append (by decide)).append (by decide))
    (WholeLine.after (by decide) (by decide) (oneLine_spelling type)) (by simp) body

theorem reads_empty : Reads false "" [] := reads_line false (s := "") (by decide)

theorem Reads.separated {a b : String} {xs ys : List String} (ha : Reads goesOn a xs)
    (hb : Reads false b ys) : Reads goesOn (a ++ tableSeparator ++ b) (xs ++ ys) := by
  have parts : a ++ tableSeparator ++ b = a ++ "\n" ++ ("" ++ "\n" ++ ("" ++ "\n" ++ b)) := by
    rw [show tableSeparator = "\n" ++ "\n" ++ "\n" from rfl]
    simp only [String.append_assoc, String.empty_append]
  rw [parts]
  exact ha.append (reads_empty.append (reads_empty.append hb))

/-- The names that the code of a table defines. -/
def tableNames (o : Options) (t : LookupTable) : List String := (stems o t).flatMap Stem.names

theorem reads_value (h : Plain t) (nonempty : t.entries ≠ []) (o : Options) :
    Reads false (match o.inlineType t with
      | some type => renderInline t type
      | none => renderMacro t) (valueStem o t).names := by
  have size : Reads false (maxLengthLine t) [upper t.name ++ "_MAX_LEN"] := by
    have part : NamePart "MAX_LEN" := by decide
    have reads := reads_sizeLine t.maxLabelLength h.upper part
    rw [String.append_assoc] at reads
    exact reads
  rw [valueStem, Stem.names]
  cases o.inlineType t with
  | none =>
    dsimp only
    rw [renderMacro, if_neg (by simpa using nonempty)]
    exact size.append (reads_macroLines h)
  | some type =>
    dsimp only
    rw [renderInline, if_neg (by simpa using nonempty), inlineLines, List.cons_append,
      List.cons_append, String.intercalate_cons_cons]
    exact size.append (reads_inlineLines h type)

theorem reads_mask (h : Plain t) (nonempty : t.entries ≠ []) (o : Options) :
    Reads false (renderMask t (o.inlineType t)) (maskStem o t).names := by
  have size : Reads false (maskMaxLengthLine t) [upper t.name ++ "_MASK" ++ "_MAX_LEN"] := by
    have part : NamePart "MASK_MAX_LEN" := by decide
    have reads := reads_sizeLine (maskMaxLength t) h.upper part
    rw [String.append_assoc] at reads ⊢
    exact reads
  unfold renderMask
  rw [if_neg (by simpa using nonempty), maskStem, Stem.names]
  cases o.inlineType t with
  | none => exact size.append (reads_maskLines h)
  | some type => exact size.append (reads_maskInlineLines h type)

theorem Reads.ne_empty {text name : String} {names : List String}
    (h : Reads false text (name :: names)) : text.isEmpty = false := by
  by_contra empty
  obtain rfl := String.isEmpty_iff.mp (Bool.of_not_eq_false empty)
  exact List.cons_ne_nil _ _ (h.names_eq.symm.trans reads_empty.names_eq)

theorem reads_renderTable (h : Plain t) (nonempty : t.entries ≠ []) (o : Options) :
    Reads false (renderTable o t) (tableNames o t) := by
  have some_ : t.entries.isEmpty = false := by simpa using nonempty
  unfold renderTable
  extract_lets type code
  have value : Reads false code (valueStem o t).names := reads_value h nonempty o
  rw [value.ne_empty, tableNames, stems, some_]
  cases t.isMask with
  | false => simpa using value
  | true => simpa using value.separated (reads_mask h nonempty o)

theorem renderTable_isEmpty (h : Plain t) (o : Options) :
    (renderTable o t).isEmpty = t.entries.isEmpty := by
  by_cases empty : t.entries = []
  · have none : renderTable o t = "" := by
      unfold renderTable
      cases o.inlineType t <;> simp [renderMacro, renderInline, empty]
    rw [none, empty]
    rfl
  · have reads := reads_renderTable h empty o
    have some_ : t.entries.isEmpty = false := by simpa using empty
    rw [tableNames, stems, some_] at reads
    rw [some_]
    exact reads.ne_empty

end Table

/-! ## The generated header -/

/-- The names that the code of headers defines. -/
def headerNames (o : Options) (headers : List HeaderTables) : List String :=
  (headers.flatMap (·.tables)).flatMap (tableNames o)

theorem tableNames_of_isEmpty {o : Options} {t : LookupTable} (h : t.entries.isEmpty = true) :
    tableNames o t = [] := by
  rw [tableNames, stems, if_pos h]
  rfl

/-- Texts with a separator between any two. -/
theorem reads_intercalate {α : Type} {text : α → String} {names : α → List String}
    {first : α} {rest : List α} (h : ∀ x ∈ first :: rest, Reads false (text x) (names x)) :
    Reads false (tableSeparator.intercalate ((first :: rest).map text))
      ((first :: rest).flatMap names) := by
  induction rest generalizing first with
  | nil => simpa using h first List.mem_cons_self
  | cons second rest ih =>
    rw [List.map_cons, List.map_cons, String.intercalate_cons_cons, List.flatMap_cons]
    exact (h first List.mem_cons_self).separated (ih fun x hx => h x (List.mem_cons_of_mem _ hx))

/-- The texts of the tables of a header. -/
theorem texts_eq {o : Options} {tables : List LookupTable} (plain : ∀ t ∈ tables, Plain t) :
    (tables.map (renderTable o)).filter (!·.isEmpty) =
      (tables.filter (!·.entries.isEmpty)).map (renderTable o) := by
  rw [List.filter_map]
  refine congrArg (List.map _) (List.filter_congr fun t ht => ?_)
  simp [renderTable_isEmpty (plain t ht) o]

theorem flatMap_tableNames (o : Options) (tables : List LookupTable) :
    (tables.filter (!·.entries.isEmpty)).flatMap (tableNames o) = tables.flatMap (tableNames o) := by
  induction tables with
  | nil => rfl
  | cons t ts ih =>
    rw [List.filter_cons, List.flatMap_cons]
    cases empty : t.entries.isEmpty with
    | true => simpa [tableNames_of_isEmpty empty] using ih
    | false => simp [ih]

section Header

variable {o : Options}

/-- The code of a header's tables defines their names; without code there are none. -/
theorem reads_section (comment : Bool) {h : HeaderTables} (path : OneLine h.path)
    (plain : ∀ t ∈ h.tables, Plain t) :
    match renderSection o comment h with
    | some text => Reads false text (h.tables.flatMap (tableNames o))
    | none => h.tables.flatMap (tableNames o) = [] := by
  rw [renderSection, texts_eq plain, ← flatMap_tableNames]
  cases used : h.tables.filter (!·.entries.isEmpty) with
  | nil => rfl
  | cons t ts =>
    have tables : Reads false (tableSeparator.intercalate ((t :: ts).map (renderTable o)))
        ((t :: ts).flatMap (tableNames o)) := by
      refine reads_intercalate fun x hx => ?_
      rw [← used] at hx
      obtain ⟨mem, nonempty⟩ := List.mem_filter.mp hx
      exact reads_renderTable (plain x mem) (by simpa using nonempty) o
    cases comment with
    | false => exact tables
    | true =>
      have line : WholeLine ("/* " ++ h.path ++ " */") :=
        wholeLine_between (by decide) (by decide) (by decide) path
      have none : defined? ("/* " ++ h.path ++ " */").toList = none :=
        defined?_eq_none (by simp)
      have reads := (reads_line false line).append tables
      rw [none] at reads
      have text : s!"/* {h.path} */\n{tableSeparator.intercalate ((t :: ts).map (renderTable o))}" =
          "/* " ++ h.path ++ " */" ++ "\n" ++
            tableSeparator.intercalate ((t :: ts).map (renderTable o)) := by
        simp [toString, String.append_assoc]
      show Reads false s!"/* {h.path} */\n{tableSeparator.intercalate ((t :: ts).map (renderTable o))}" _
      rw [text]
      exact reads

theorem reads_fixed {s : String} (h : WholeLine s ∧ defined? s.toList = none) :
    Reads false s [] := by
  have reads := reads_line false h.1
  rw [h.2] at reads
  exact reads

theorem reads_preamble {input : String} (path : OneLine (o.includePath input))
    (headers : List HeaderTables) : Reads false (preamble o input headers) [] := by
  have once : Reads false "#pragma once" [] := reads_fixed (by decide)
  have fixedWidth : Reads false "#include <stdint.h>" [] := reads_fixed (by decide)
  have strings : Reads false "#include <string.h>" [] := reads_fixed (by decide)
  have line : WholeLine ("#include \"" ++ o.includePath input ++ "\"") :=
    wholeLine_between (by decide) (by decide) (by decide) path
  have included : Reads false ("#include \"" ++ o.includePath input ++ "\"") [] := by
    refine reads_fixed ⟨line, ?_⟩
    rw [String.append_assoc, String.toList_append]
    rfl
  have ends := strings.append included
  unfold preamble
  split
  · have reads := once.append (fixedWidth.append ends)
    simpa [toString, ← String.append_assoc] using reads
  · have reads := once.append ends
    simpa [toString, ← String.append_assoc] using reads

theorem headerNames_cons (h : HeaderTables) (hs : List HeaderTables) :
    headerNames o (h :: hs) = h.tables.flatMap (tableNames o) ++ headerNames o hs := by
  simp [headerNames]

theorem reads_sections (comment : Bool) {headers : List HeaderTables}
    (paths : ∀ h ∈ headers, OneLine h.path) (plain : ∀ h ∈ headers, ∀ t ∈ h.tables, Plain t) :
    Reads false (tableSeparator.intercalate (headers.filterMap (renderSection o comment)))
      (headerNames o headers) := by
  induction headers with
  | nil => exact reads_empty
  | cons h hs ih =>
    have first := reads_section (o := o) comment (paths h List.mem_cons_self)
      (plain h List.mem_cons_self)
    have rest := ih (fun x hx => paths x (List.mem_cons_of_mem _ hx))
      fun x hx => plain x (List.mem_cons_of_mem _ hx)
    rw [List.filterMap_cons, headerNames_cons]
    cases section_ : renderSection o comment h with
    | none =>
      rw [section_] at first
      rw [first]
      exact rest
    | some text =>
      rw [section_] at first
      cases others : hs.filterMap (renderSection o comment) with
      | nil =>
        have none : headerNames o hs = [] := by
          rw [others] at rest
          exact rest.names_eq.symm.trans reads_empty.names_eq
        rw [none, List.append_nil]
        exact first
      | cons second more =>
        rw [others] at rest
        dsimp only
        rw [String.intercalate_cons_cons]
        exact first.separated rest

/-- The generated header defines the names that belong to its tables, in this order. -/
theorem definedIn_renderHeader {input : String} {headers : List HeaderTables}
    (path : OneLine (o.includePath input)) (paths : ∀ h ∈ headers, OneLine h.path)
    (plain : ∀ h ∈ headers, ∀ t ∈ h.tables, Plain t) :
    definedIn (renderHeader o input headers) = headerNames o headers := by
  have sections := reads_sections (o := o) (1 < headers.length) paths plain
  have reads := ((reads_preamble path headers).separated sections).append reads_empty
  rw [List.nil_append, List.append_nil, String.append_empty] at reads
  exact reads.names_eq

end Header

end ConstLookup.Emit
