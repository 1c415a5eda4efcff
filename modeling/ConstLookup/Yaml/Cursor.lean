import ConstLookup.Text.Word

/-!
  A place in a YAML text, and the blanks and line ends there. A line ends with a line feed, a
  carriage return, both, or one of the line ends of Unicode.
-/

namespace ConstLookup.Yaml

open ConstLookup.Text

/-- A character that a YAML text may hold. -/
def isAllowed (c : Char) : Bool :=
  let n := c.toNat
  n = 0x09 || n = 0x0A || n = 0x0D || (0x20 ≤ n && n ≤ 0x7E) || n = 0x85 ||
    (0xA0 ≤ n && n ≤ 0xD7FF) || (0xE000 ≤ n && n ≤ 0xFFFD && n ≠ 0xFEFF) || 0x10000 ≤ n

/-- A space or a tabulator. -/
def isBlank (c : Char) : Bool := c = ' ' || c = '\t'

/-- A character that ends a line. -/
def isBreak (c : Char) : Bool :=
  c = '\n' || c = '\r' || c = '\u0085' || c = '\u2028' || c = '\u2029'

/-- A character of anchor names and tag handles. -/
def isNamePart (c : Char) : Bool := isIdentPart c || c = '-'

/-- A blank or a line end stands at the start of a text, or nothing does. -/
def endsWord : List Char → Bool
  | [] => true
  | c :: _ => isBlank c || isBreak c

/-- A line end stands at the start of a text, or nothing does. -/
def endsLine : List Char → Bool
  | [] => true
  | c :: _ => isBreak c

/-- A place in a text. -/
structure Cursor where
  rest : List Char
  line : Nat := 0
  column : Nat := 0
  /-- How many characters stand before the place. -/
  index : Nat := 0

namespace Cursor

/-- The place after the next character, which ends no line. -/
def next (c : Cursor) : Cursor :=
  { c with rest := c.rest.tail, column := c.column + 1, index := c.index + 1 }

/-- The place after the next characters, none of which ends a line. -/
def skip (n : Nat) (c : Cursor) : Cursor :=
  { c with rest := c.rest.drop n, column := c.column + n, index := c.index + n }

/-- The line end at a place, in its plain form, and the place after it. -/
def lineBreak? (c : Cursor) : Option (Char × Cursor) :=
  let after (n : Nat) : Cursor :=
    { rest := c.rest.drop n, line := c.line + 1, column := 0, index := c.index + n }
  match c.rest with
  | '\r' :: '\n' :: _ => some ('\n', after 2)
  | b :: _ =>
    if b = '\n' || b = '\r' || b = '\u0085' then some ('\n', after 1)
    else if isBreak b then some (b, after 1)
    else none
  | [] => none

/-- The characters that satisfy `p`, none of which ends a line, and the place after them. -/
def span (p : Char → Bool) (c : Cursor) : List Char × Cursor :=
  let taken := c.rest.takeWhile p
  (taken, c.skip taken.length)

/-- The place after blanks. -/
def skipBlanks (c : Cursor) : Cursor := (c.span isBlank).2

/-- The place after the comment that stands there, if one does. -/
def skipComment (c : Cursor) : Cursor :=
  if c.rest.head? = some '#' then (c.span (!isBreak ·)).2 else c

/-- A line that begins or ends a document starts at the place. -/
def atDocumentMark (c : Cursor) : Bool :=
  c.column = 0 && ["---", "..."].any fun m =>
    m.toList.isPrefixOf c.rest && endsWord (c.rest.drop 3)

end Cursor

end ConstLookup.Yaml
