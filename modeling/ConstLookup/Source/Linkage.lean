import ConstLookup.Text.Lines

/-!
  Linkage guards. A header for C and C++ opens `extern "C" {` in one `#ifdef __cplusplus` block
  and closes it in another. Both lines are blanked, so that each block stays balanced for C. A
  blanked line keeps its length, so positions in the text do not move.
-/

namespace ConstLookup.Linkage

open ConstLookup.Text

/-- The open block whose condition asks for C++. -/
structure Guard where
  /-- How many blocks are open with it. -/
  depth : Nat
  /-- The current branch is the one for C++. -/
  isCpp : Bool
  deriving DecidableEq, Repr

/-- What is known before a line. -/
structure State where
  depth : Nat := 0
  guard : Option Guard := none
  deriving DecidableEq, Repr

/-- The line without line feeds and carriage returns at its end. -/
def content (line : List Char) : List Char := dropEndWhile (fun c => c = '\r' || c = '\n') line

/-- The directive of a line without the sign that starts it. -/
def directive? (text : List Char) : Option (List Char) :=
  match text.dropWhile isBlank with
  | '#' :: rest => some (rest.dropWhile isBlank)
  | _ => none

/-- The line opens a block whose condition holds the word `__cplusplus`. -/
def asksForCpp (text : List Char) : Bool :=
  match skipLineBlanks text with
  | '#' :: rest =>
    ["if", "ifdef", "ifndef"].any fun word =>
      match afterWord? word (skipLineBlanks rest) with
      | some condition => containsWord "__cplusplus" true condition
      | none => false
  | _ => false

/-- Nothing but blanks and at most one comment. -/
def isIdle (text : List Char) : Bool :=
  let rest := dropEndWhile isLineBlank (skipLineBlanks text)
  rest.isEmpty || ['/', '/'].isPrefixOf rest ||
    (['/', '*'].isPrefixOf rest && 4 ≤ rest.length && ['*', '/'].isSuffixOf rest)

/-- The text after the opening `extern "C" {` or a closing brace with an optional semicolon. -/
def afterBrace? (text : List Char) : Option (List Char) :=
  match skipLineBlanks text with
  | '\x7d' :: rest =>
    match skipLineBlanks rest with
    | ';' :: rest => some rest
    | rest => some rest
  | text =>
    match after? "extern".toList text with
    | some (c :: rest) =>
      if isLineBlank c then
        let rest := skipLineBlanks rest
        let named := match after? "\"C++\"".toList rest with
          | some rest => some rest
          | none => after? "\"C\"".toList rest
        match named.map skipLineBlanks with
        | some ('\x7b' :: rest) => some rest
        | _ => none
      else none
    | _ => none

/-- The line holds only an opening or a closing linkage brace. -/
def isBrace (text : List Char) : Bool := ((afterBrace? text).map isIdle).getD false

/-- The state after a directive. -/
def State.after (s : State) (text directive : List Char) : State :=
  let starts (word : String) : Bool := word.toList.isPrefixOf directive
  if starts "if" then
    let depth := s.depth + 1
    let guard := match s.guard with
      | some g => some g
      | none =>
        if asksForCpp text then
          some { depth := depth, isCpp := !(starts "ifndef" || directive.contains '!') }
        else none
    { depth := depth, guard := guard }
  else if starts "el" then
    { s with guard := s.guard.map fun g =>
        if g.depth = s.depth then { g with isCpp := starts "else" && !g.isCpp } else g }
  else if starts "endif" then
    { depth := s.depth - 1
      guard := s.guard.filter fun g => g.depth ≠ s.depth }
  else s

/-- The line with blanks in place of all but its line end. -/
def blank (line : List Char) : List Char :=
  line.map fun c => if c = '\r' || c = '\n' then c else ' '

/-- Blank the linkage braces of lines. -/
def stripLines (s : State) : List (List Char) → List (List Char)
  | [] => []
  | line :: rest =>
    let text := content line
    match directive? text with
    | some directive => line :: stripLines (s.after text directive) rest
    | none =>
      let hides := (s.guard.map Guard.isCpp).getD false && isBrace text
      (if hides then blank line else line) :: stripLines s rest

/-- Blank the linkage braces of a source text. -/
def strip (cs : List Char) : List Char := (stripLines {} (lines cs)).flatten

end ConstLookup.Linkage
