import ConstLookup.Text.Lines

/-!
  The include directives of a source text. Comments are replaced by blanks, but no line feed is lost
  (`count_stripFrom`), and lines in branches of conditionals that a literal `0` or `1` switches off
  are left out.
-/

namespace ConstLookup.Include

open ConstLookup.Text

/-! ## Comments -/

/-- Where a scan for comments stands. -/
inductive Region where
  | code
  /-- Inside a quoted part that ends at the given character. -/
  | quoted (mark : Char)
  | lineComment
  /-- Inside a block comment; the flag says that the last character was a star. -/
  | blockComment (star : Bool)
  deriving DecidableEq, Repr

/-- Replace each comment by a blank. The line feeds of block comments stay. -/
def stripFrom : Region → List Char → List Char
  | .code, [] => []
  | .code, '/' :: '/' :: cs => ' ' :: stripFrom .lineComment cs
  | .code, '/' :: '*' :: cs => stripFrom (.blockComment false) cs
  | .code, c :: cs => c :: stripFrom (if c = '"' || c = '\'' then .quoted c else .code) cs
  | .quoted _, [] => []
  | .quoted mark, '\\' :: c :: cs => '\\' :: c :: stripFrom (.quoted mark) cs
  | .quoted mark, c :: cs =>
    c :: stripFrom (if c = '\n' || c = mark then .code else .quoted mark) cs
  | .lineComment, [] => []
  | .lineComment, c :: cs =>
    if c = '\n' then '\n' :: stripFrom .code cs else stripFrom .lineComment cs
  | .blockComment _, [] => [' ']
  | .blockComment star, c :: cs =>
    if star && c = '/' then ' ' :: stripFrom .code cs
    else if c = '\n' then '\n' :: stripFrom (.blockComment false) cs
    else stripFrom (.blockComment (c = '*')) cs

theorem stripFrom_escaped (mark c : Char) (cs : List Char) :
    stripFrom (.quoted mark) ('\\' :: c :: cs) = '\\' :: c :: stripFrom (.quoted mark) cs :=
  stripFrom.eq_6 mark c cs

theorem stripFrom_unescaped {mark c : Char} (noEscape : c ≠ '\\') (cs : List Char) :
    stripFrom (.quoted mark) (c :: cs) =
      c :: stripFrom (if c = '\n' || c = mark then .code else .quoted mark) cs :=
  stripFrom.eq_7 mark c cs fun _ _ same => absurd same noEscape

/-- No line feed is lost. -/
theorem count_stripFrom (r : Region) (cs : List Char) :
    (stripFrom r cs).count '\n' = cs.count '\n' := by
  fun_induction stripFrom r cs with
  | case1 | case5 | case8 | case11 => rfl
  | case2 cs ih | case3 cs ih => simpa [List.count_cons] using ih
  | case4 c cs _ _ ih | case7 mark c cs _ ih => rw [List.count_cons, List.count_cons, ih]
  | case6 mark c cs ih => simp [List.count_cons, ih]
  | case9 cs ih | case13 star cs _ ih => rw [List.count_cons, List.count_cons, ih]
  | case10 c cs other ih | case14 star c cs _ other ih => rw [ih, List.count_cons_of_ne other]
  | case12 star c cs ends ih =>
    obtain ⟨-, slash⟩ : star = true ∧ c = '/' := by simpa using ends
    simpa [List.count_cons, slash] using ih

/-- Replace each comment of a text by a blank. -/
def stripComments (cs : List Char) : List Char := stripFrom .code cs

/-! ## Conditionals -/

/-- The directives of conditional blocks. -/
inductive Conditional where
  | ifdef
  | ifndef
  | ifValue
  | elseIf
  | otherwise
  | endif
  deriving DecidableEq, Repr

/-- Spelling of a directive. -/
def Conditional.word : Conditional → String
  | ifdef => "ifdef"
  | ifndef => "ifndef"
  | ifValue => "if"
  | elseIf => "elif"
  | otherwise => "else"
  | endif => "endif"

/-- The directives of conditional blocks. -/
def Conditional.all : List Conditional := [ifdef, ifndef, ifValue, elseIf, otherwise, endif]

/-- The text after the sign that starts a directive. -/
def afterHash? (line : List Char) : Option (List Char) :=
  match skipLineBlanks line with
  | '#' :: rest => some (skipLineBlanks rest)
  | _ => none

/-- The conditional directive of a line and the text after its word. -/
def conditional? (line : List Char) : Option (Conditional × List Char) :=
  (afterHash? line).bind fun text =>
    Conditional.all.findSome? fun d =>
      (afterWord? d.word text).map fun rest => (d, rest.takeWhile (· ≠ '\n'))

/-- What is known about the current branch of a conditional block. -/
inductive Branch where
  /-- A condition is not a literal, so every branch from there on may be taken. -/
  | unknown
  /-- The current branch is taken. -/
  | taken
  /-- The current branch is not taken, nor was an earlier one. -/
  | skipped
  /-- An earlier branch was taken. -/
  | done
  deriving DecidableEq, Repr

namespace Branch

/-- The branch that a condition starts. -/
def ofCondition (condition : List Char) : Branch :=
  match trim condition with
  | ['0'] => skipped
  | ['1'] => taken
  | _ => unknown

/-- The lines of the branch may be active. -/
def isLive : Branch → Bool
  | unknown | taken => true
  | skipped | done => false

/-- The branch after the current one of a block; it is `next` if no earlier one was taken. -/
def following (current next : Branch) : Branch :=
  match current with
  | skipped => next
  | taken | done => done
  | unknown => unknown

end Branch

/-- The open blocks, innermost first, after a directive with the given condition. -/
def afterDirective (stack : List Branch) (d : Conditional) (condition : List Char) : List Branch :=
  match d, stack with
  | .ifValue, stack =>
    (if stack.all Branch.isLive then Branch.ofCondition condition else .unknown) :: stack
  | .ifdef, stack | .ifndef, stack => .unknown :: stack
  | .elseIf, top :: rest => top.following (Branch.ofCondition condition) :: rest
  | .otherwise, top :: rest => top.following .taken :: rest
  | .endif, _ :: rest => rest
  | .elseIf, [] | .otherwise, [] | .endif, [] => []

/-- The lines that may be active, inside the given open blocks. -/
def activeFrom (stack : List Branch) : List (List Char) → List (List Char)
  | [] => []
  | line :: rest =>
    match conditional? line with
    | some (d, condition) => activeFrom (afterDirective stack d condition) rest
    | none =>
      if stack.all Branch.isLive then line :: activeFrom stack rest else activeFrom stack rest

/-- The lines of a text that may be active. -/
def activeLines (ls : List (List Char)) : List (List Char) := activeFrom [] ls

/-! ## Includes -/

/-- How a header is included. -/
inductive Kind where
  /-- Between quotes. -/
  | quoted
  /-- Between angle brackets. -/
  | angled
  deriving DecidableEq, Repr

/-- The non-empty text before the closing character on the same line. -/
def enclosed? (close : Char) (cs : List Char) : Option String :=
  let name := cs.takeWhile fun c => c ≠ close && c ≠ '\n'
  if !name.isEmpty && (cs.drop name.length).head? = some close then some (String.ofList name)
  else none

/-- The include directive of a line. -/
def includeOf? (line : List Char) : Option (Kind × String) :=
  match ((afterHash? line).bind (after? "include".toList)).map skipLineBlanks with
  | some ('"' :: rest) => (enclosed? '"' rest).map fun name => (.quoted, name)
  | some ('<' :: rest) => (enclosed? '>' rest).map fun name => (.angled, name)
  | _ => none

/-- The include directives of a source text, in order. -/
def scan (source : String) : List (Kind × String) :=
  (activeLines (lines (stripComments source.toList))).filterMap includeOf?

end ConstLookup.Include
