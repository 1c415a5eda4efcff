import ConstLookup.Yaml.Scalar

/-!
  Tokens of YAML text. Indentation becomes tokens too: a collection that is not in brackets has a
  start and an end. A key that is not announced by a question mark shows only at its colon, so
  what may turn out to be a key is remembered with the number of tokens before it.
-/

namespace ConstLookup.Yaml

/-- A token. -/
inductive Token where
  /-- A directive; one that declares a tag handle gives the handle. -/
  | directive (handle : Option String)
  | documentStart
  | documentEnd
  | blockSequenceStart
  | blockMappingStart
  | blockEnd
  | flowSequenceStart
  | flowSequenceEnd
  | flowMappingStart
  | flowMappingEnd
  | blockEntry
  | flowEntry
  | key
  | value
  | reference (name : String)
  | anchor (name : String)
  | tag (handle rest : String)
  | scalar (text : String) (plain : Bool)
  deriving DecidableEq, Repr

/-- What may turn out to be a key. -/
structure KeyMark where
  /-- How many tokens come before it. -/
  before : Nat
  line : Nat
  column : Nat
  index : Nat
  /-- It stands where nothing but a key may stand. -/
  required : Bool

/-- A place between tokens. -/
structure Scanner where
  cursor : Cursor
  tokens : Array Token := #[]
  /-- The columns of the open collections that are not in brackets, innermost first. -/
  indents : List Nat := []
  /-- What may be a key outside brackets. -/
  outerKey : Option KeyMark := none
  /-- What may be a key in every open bracket, innermost first. -/
  innerKeys : List (Option KeyMark) := []
  /-- A key may begin here. -/
  keyAllowed : Bool := true

namespace Scanner

/-- The place is in brackets. -/
def inFlow (s : Scanner) : Bool := !s.innerKeys.isEmpty

/-- What may be a key in the innermost bracket. -/
def keyMark (s : Scanner) : Option KeyMark := s.innerKeys.headD s.outerKey

/-- Replace what may be a key in the innermost bracket. -/
def setKeyMark (s : Scanner) (mark : Option KeyMark) : Scanner :=
  match s.innerKeys with
  | _ :: more => { s with innerKeys := mark :: more }
  | [] => { s with outerKey := mark }

/-- Add a token. -/
def push (s : Scanner) (t : Token) : Scanner := { s with tokens := s.tokens.push t }

/-- The column before which a line ends the innermost collection. -/
def contentColumn (s : Scanner) : Nat := (s.indents.head?.map (· + 1)).getD 0

/-! ## Keys -/

/-- A key must end on its line, within this many characters. -/
def keyReach : Nat := 1024

/-- What may be a key, after the places that are too far on; `none` if it had to be one. -/
def KeyMark.fresh (c : Cursor) (mark : Option KeyMark) : Option (Option KeyMark) :=
  match mark with
  | none => some none
  | some m =>
    if m.line < c.line || m.index + keyReach < c.index then
      if m.required then none else some none
    else some (some m)

/-- Forget what is no key any more. -/
def dropStale (s : Scanner) : Option Scanner := do
  let outer ← KeyMark.fresh s.cursor s.outerKey
  let inner ← s.innerKeys.mapM (KeyMark.fresh s.cursor)
  some { s with outerKey := outer, innerKeys := inner }

/-- Give up what may be a key in the innermost bracket. -/
def dropKey (s : Scanner) : Option Scanner :=
  if s.keyMark.any (·.required) then none else some (s.setKeyMark none)

/-- Remember that what comes next may be a key. -/
def saveKey (s : Scanner) : Option Scanner :=
  if !s.keyAllowed then some s
  else do
    let s ← s.dropKey
    let c := s.cursor
    some (s.setKeyMark (some
      { before := s.tokens.size
        line := c.line
        column := c.column
        index := c.index
        required := !s.inFlow && s.indents.head? = some c.column }))

/-! ## Indentation -/

/-- End the collections that are indented further than a column. -/
def closeFrom (s : Scanner) (column : Option Nat) : List Nat → Scanner
  | [] => { s with indents := [] }
  | i :: more =>
    if column.all (· < i) then closeFrom (s.push .blockEnd) column more
    else { s with indents := i :: more }

/-- End the collections that are indented further than a column; `none` ends all of them. -/
def close (s : Scanner) (column : Option Nat) : Scanner :=
  if s.inFlow then s else s.closeFrom column s.indents

/-- Begin a collection at a column, unless one is open there; its start goes before the token
with the given number. -/
def openAt (s : Scanner) (column : Nat) (start : Token) (before : Nat) : Scanner :=
  if s.inFlow || s.indents.head?.any (column ≤ ·) then s
  else
    { s with
      indents := column :: s.indents
      tokens := s.tokens.insertIdxIfInBounds before start }

/-! ## Blanks, comments and line ends -/

/-- The place before the next token; a new line lets a key begin. -/
def skipGap : Nat → Scanner → Scanner
  | 0, s => s
  | steps + 1, s =>
    match s.cursor.rest with
    | [] => s
    | b :: _ =>
      if b = ' ' || (b = '\t' && (s.inFlow || !s.keyAllowed)) then
        skipGap steps { s with cursor := s.cursor.next }
      else if b = '#' then skipGap steps { s with cursor := s.cursor.skipComment }
      else
        match s.cursor.lineBreak? with
        | some (_, after) =>
          skipGap steps { s with cursor := after, keyAllowed := s.keyAllowed || !s.inFlow }
        | none => s

/-! ## Single tokens -/

/-- Add a token that is spelled by the next characters. -/
def mark (s : Scanner) (length : Nat) (keyAllowed : Bool) (t : Token) : Scanner :=
  { s.push t with cursor := s.cursor.skip length, keyAllowed := keyAllowed }

/-- The line that begins or ends a document. -/
def documentMark (s : Scanner) : Option Scanner := do
  let s ← (s.close none).dropKey
  let t := if s.cursor.rest.head? = some '-' then Token.documentStart else .documentEnd
  some (s.mark 3 false t)

/-- An opening bracket. -/
def openBracket (s : Scanner) (t : Token) : Option Scanner := do
  let s ← s.saveKey
  some { s.mark 1 true t with innerKeys := none :: s.innerKeys }

/-- A closing bracket. -/
def closeBracket (s : Scanner) (t : Token) : Option Scanner := do
  let s ← s.dropKey
  some { s.mark 1 false t with innerKeys := s.innerKeys.tail }

/-- A dash before an item, or a question mark before a key. -/
def entry (s : Scanner) (start t : Token) (keyAllowed : Bool) : Option Scanner := do
  if !s.inFlow && !s.keyAllowed then none
  else
    let s ← (s.openAt s.cursor.column start s.tokens.size).dropKey
    some (s.mark 1 keyAllowed t)

/-- A colon. If a key is remembered, it is one. -/
def colon (s : Scanner) : Option Scanner :=
  match s.keyMark with
  | some m =>
    let s := { s with tokens := s.tokens.insertIdxIfInBounds m.before .key }
    let s := s.openAt m.column .blockMappingStart m.before
    some ((s.setKeyMark none).mark 1 false .value)
  | none =>
    if !s.inFlow && !s.keyAllowed then none
    else
      let s := s.openAt s.cursor.column .blockMappingStart s.tokens.size
      some (s.mark 1 (!s.inFlow) .value)

/-- An anchor, or an alias for one. -/
def named (s : Scanner) (t : String → Token) : Option Scanner := do
  let s ← s.saveKey
  let (name, c) := s.cursor.next.span isNamePart
  let ends := endsWord c.rest || c.rest.head?.any fun d =>
    ['?', ':', ',', ']', '\x7d', '%', '@', '\x60'].contains d
  if name.isEmpty || !ends then none
  else some { s.push (t (String.ofList name)) with cursor := c, keyAllowed := false }

/-- A character of a tag; commas and square brackets belong only to one in angle brackets. -/
def isTagPart (verbatim : Bool) (c : Char) : Bool :=
  isNamePart c ||
    [';', '/', '?', ':', '@', '&', '=', '+', '$', '.', '%', '!', '~', '*', '\'', '(', ')'].contains
      c ||
    (verbatim && [',', '[', ']'].contains c)

/-- The handle and the rest of a tag, and the place after it. -/
def tagParts (c : Cursor) : Option (List Char × List Char × Cursor) :=
  match c.rest with
  | '!' :: '<' :: _ =>
    let (name, c) := (c.skip 2).span (isTagPart true)
    if name.isEmpty || c.rest.head? ≠ some '>' then none else some ([], name, c.next)
  | _ =>
    let (handle, c) := c.next.span isNamePart
    if c.rest.head? = some '!' then
      let (rest, c) := c.next.span (isTagPart false)
      if rest.isEmpty then none else some ('!' :: handle ++ ['!'], rest, c)
    else
      let (rest, c) := c.span (isTagPart false)
      some (['!'], handle ++ rest, c)

/-- A tag. -/
def tagToken (s : Scanner) : Option Scanner := do
  let s ← s.saveKey
  let (handle, rest, c) ← tagParts s.cursor
  if !endsWord c.rest && !(s.inFlow && c.rest.head? = some ',') then none
  else
    let t := Token.tag (String.ofList handle) (String.ofList rest)
    some { s.push t with cursor := c, keyAllowed := false }

/-- Quoted text. -/
def quotedToken (s : Scanner) (double : Bool) : Option Scanner := do
  let s ← s.saveKey
  let (text, c) ← Scalar.quoted double s.cursor
  some { s.push (.scalar (String.ofList text) false) with cursor := c, keyAllowed := false }

/-- Block text. -/
def blockToken (s : Scanner) (folded : Bool) : Option Scanner := do
  let s ← s.dropKey
  let (text, c) ← Scalar.block folded s.indents.head? s.cursor
  some { s.push (.scalar (String.ofList text) false) with cursor := c, keyAllowed := true }

/-- Plain text. -/
def plainToken (s : Scanner) : Option Scanner := do
  let s ← s.saveKey
  let (text, broken, c) ← Scalar.plain s.inFlow s.contentColumn s.cursor
  some { s.push (.scalar (String.ofList text) true) with cursor := c, keyAllowed := broken }

/-! ## Directives -/

/-- A run of digits and the place after it. -/
def digits? (c : Cursor) : Option (Nat × Cursor) :=
  let (ds, c) := c.span Text.isDigit
  if ds.length ≤ 9 then (Text.digits? 10 ds).map fun n => (n, c) else none

/-- The version that a directive names: 1.1 or 1.2. -/
def version? (c : Cursor) : Option Cursor := do
  let (major, c) ← digits? c.skipBlanks
  if c.rest.head? ≠ some '.' then none
  else
    let (minor, c) ← digits? c.next
    if major = 1 && (minor = 1 || minor = 2) then some c else none

/-- The handle that a directive declares for tags. -/
def handle? (c : Cursor) : Option (String × Cursor) :=
  let c := c.skipBlanks
  if c.rest.head? ≠ some '!' then none
  else
    let (name, after) := c.next.span isNamePart
    let (handle, after) :=
      if after.rest.head? = some '!' then ('!' :: name ++ ['!'], after.next)
      else ('!' :: name, after)
    let closed := handle = ['!'] || handle.getLast? = some '!' && 1 < handle.length
    if !closed || !after.rest.head?.any isBlank then none
    else
      let (target, after) := after.skipBlanks.span (isTagPart true)
      if target.isEmpty || !endsWord after.rest then none
      else some (String.ofList handle, after)

/-- A directive. -/
def directiveToken (s : Scanner) : Option Scanner := do
  let s ← (s.close none).dropKey
  let (name, c) := s.cursor.next.span isNamePart
  let (t, c) ←
    if !endsWord c.rest then none
    else if name = "YAML".toList then (version? c).map fun c => (Token.directive none, c)
    else if name = "TAG".toList then (handle? c).map fun (h, c) => (Token.directive (some h), c)
    else none
  let c := c.skipBlanks.skipComment
  if endsLine c.rest then some { s.push t with cursor := c, keyAllowed := false } else none

/-! ## All tokens -/

/-- A character that plain text does not begin with. -/
def isIndicator (c : Char) : Bool :=
  ['-', '?', ':', ',', '[', ']', '\x7b', '\x7d', '#', '&', '*', '!', '|', '>', '\'', '"', '%', '@',
    '\x60'].contains c

/-- Plain text begins with a character and what follows it. -/
def startsPlain (s : Scanner) (c : Char) (cs : List Char) : Bool :=
  !(isIndicator c || isBlank c) || (c = '-' && !cs.head?.any isBlank) ||
    (!s.inFlow && (c = '?' || c = ':') && !endsWord cs)

/-- Read the next token, which begins with the given character. -/
def step (s : Scanner) (c : Char) (cs : List Char) : Option Scanner :=
  if s.cursor.column = 0 && c = '%' then s.directiveToken
  else if s.cursor.atDocumentMark then s.documentMark
  else if c = '[' then s.openBracket .flowSequenceStart
  else if c = '\x7b' then s.openBracket .flowMappingStart
  else if c = ']' then s.closeBracket .flowSequenceEnd
  else if c = '\x7d' then s.closeBracket .flowMappingEnd
  else if c = ',' then s.dropKey.map (·.mark 1 true .flowEntry)
  else if c = '-' && endsWord cs then s.entry .blockSequenceStart .blockEntry true
  else if c = '?' && (s.inFlow || endsWord cs) then
    s.entry .blockMappingStart .key (!s.inFlow)
  else if c = ':' && (s.inFlow || endsWord cs) then s.colon
  else if c = '*' then s.named .reference
  else if c = '&' then s.named .anchor
  else if c = '!' then s.tagToken
  else if (c = '|' || c = '>') && !s.inFlow then s.blockToken (c = '>')
  else if c = '"' || c = '\'' then s.quotedToken (c = '"')
  else if s.startsPlain c cs then s.plainToken
  else none

/-- Read all tokens; every token takes a character. -/
def run : Nat → Scanner → Option Scanner
  | 0, _ => none
  | steps + 1, s => do
    let s ← (skipGap (s.cursor.rest.length + 1) s).dropStale
    let s := s.close (some s.cursor.column)
    match s.cursor.rest with
    | [] => (s.close none).dropKey
    | c :: cs =>
      let s ← s.step c cs
      run steps s

end Scanner

/-- The tokens of a text; `none` if it is not made of tokens. A mark of byte order may stand at
its start. -/
def tokens? (text : String) : Option (List Token) :=
  let cs := match text.toList with
    | '\ufeff' :: cs => cs
    | cs => cs
  if cs.all isAllowed then
    (Scanner.run (cs.length + 1) { cursor := { rest := cs } }).map (·.tokens.toList)
  else none

end ConstLookup.Yaml
