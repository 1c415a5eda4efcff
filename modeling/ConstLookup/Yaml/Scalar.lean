import ConstLookup.Yaml.Cursor

/-!
  The written forms of YAML scalars: plain, quoted and block text. Inside plain and quoted text a
  single line end stands for a space, and each further one for itself.
-/

namespace ConstLookup.Yaml.Scalar

/-- A scalar's text and the place after it; `none` if the form is broken. -/
abbrev Read := Option (List Char × Cursor)

/-! ## Blanks and line ends inside a scalar -/

/-- Blanks and line ends between two parts of a scalar. -/
structure Gap where
  /-- The blanks before the first line end. -/
  blanks : List Char := []
  /-- There is a line end. -/
  broken : Bool := false
  /-- The first line end; none if a backslash took it away. -/
  first : Option Char := none
  /-- The line ends after the first one. -/
  later : List Char := []

/-- What a gap stands for. -/
def Gap.text (g : Gap) : List Char :=
  if !g.broken then g.blanks
  else
    match g.first with
    | none => g.later
    | some '\n' => if g.later.isEmpty then [' '] else g.later
    | some c => c :: g.later

/-- Read a gap on; a tabulator may not stand before column `indent` of a new line. -/
def gapFrom (indent : Nat) (g : Gap) : Nat → Cursor → Option (Gap × Cursor)
  | 0, c => some (g, c)
  | steps + 1, c =>
    match c.lineBreak? with
    | some (b, after) =>
      let g := if g.broken then { g with later := g.later ++ [b] }
        else { g with blanks := [], broken := true, first := some b }
      gapFrom indent g steps after
    | none =>
      match c.rest with
      | b :: _ =>
        if !isBlank b then some (g, c)
        else if g.broken && c.column < indent && b = '\t' then none
        else
          let g := if g.broken then g else { g with blanks := g.blanks ++ [b] }
          gapFrom indent g steps c.next
      | [] => some (g, c)

/-- Read a gap. -/
def gap (indent : Nat) (g : Gap) (c : Cursor) : Option (Gap × Cursor) :=
  gapFrom indent g (c.rest.length + 1) c

/-! ## Plain text -/

/-- A character that separates the items of a collection in brackets. -/
def isFlowMark (c : Char) : Bool := [',', '[', ']', '\x7b', '\x7d'].contains c

/-- The characters of plain text up to a blank, a line end or a mark; `none` if a colon stands
before a bracket. -/
def plainRun (inFlow : Bool) : List Char → Option (List Char)
  | [] => some []
  | c :: cs =>
    if isBlank c || isBreak c then some []
    else if inFlow && c = ':' && cs.head?.any fun d => isFlowMark d || d = '?' then none
    else if (c = ':' && endsWord cs) || (inFlow && isFlowMark c) then some []
    else (plainRun inFlow cs).map (c :: ·)

/-- Read plain text on: `text` is the text so far, `g` the gap after it. Text that is not in
brackets ends where a line begins before column `indent`. -/
def plainFrom (inFlow : Bool) (indent : Nat) (text : List Char) (g : Gap) :
    Nat → Cursor → Option (List Char × Bool × Cursor)
  | 0, _ => none
  | steps + 1, c =>
    if c.atDocumentMark || c.rest.head? = some '#' then some (text, g.broken, c)
    else do
      let run ← plainRun inFlow c.rest
      let c := c.skip run.length
      let text := if run.isEmpty then text else text ++ g.text ++ run
      let broken := run.isEmpty && g.broken
      match c.rest with
      | [] => some (text, broken, c)
      | b :: _ =>
        if !(isBlank b || isBreak b) then some (text, broken, c)
        else
          let (more, c) ← gap indent {} c
          if !inFlow && c.column < indent then some (text, more.broken, c)
          else plainFrom inFlow indent text more steps c

/-- Read plain text; the answer also tells whether a line end was read after it. -/
def plain (inFlow : Bool) (indent : Nat) (c : Cursor) : Option (List Char × Bool × Cursor) :=
  plainFrom inFlow indent [] {} (c.rest.length + 1) c

/-! ## Quoted text -/

/-- The characters that a letter after a backslash stands for. -/
def escapes : List (Char × Char) :=
  [('0', '\x00'), ('a', '\x07'), ('b', '\x08'), ('t', '\t'), ('\t', '\t'), ('n', '\n'),
    ('v', '\x0b'), ('f', '\x0c'), ('r', '\r'), ('e', '\x1b'), (' ', ' '), ('"', '"'),
    ('/', '/'), ('\\', '\\'), ('N', '\u0085'), ('_', '\u00a0'), ('L', '\u2028'), ('P', '\u2029')]

/-- How many hexadecimal digits follow a letter after a backslash. -/
def escapeLength? : Char → Option Nat
  | 'x' => some 2
  | 'u' => some 4
  | 'U' => some 8
  | _ => none

/-- The character with the given number, if there is one. -/
def char? (n : Nat) : Option Char := if n.isValidChar then some (Char.ofNat n) else none

/-- The character after a backslash, and how many characters spell it. -/
def escape? : List Char → Option (Char × Nat)
  | [] => none
  | c :: cs =>
    match escapeLength? c with
    | some n =>
      let ds := cs.take n
      if ds.length = n then
        ((Text.digits? 16 ds).bind char?).map fun value => (value, n + 1)
      else none
    | none => (escapes.find? (·.1 = c)).map fun e => (e.2, 1)

/-- The place after a backslash that takes away a line end. -/
def afterTakenBreak? (c : Cursor) : Option Cursor :=
  if c.rest.head? = some '\\' then c.next.lineBreak?.map (·.2) else none

/-- Read quoted text on, up to the closing quote. Escapes count in double quotes; in single
quotes a quote is written twice. -/
def quotedFrom (double : Bool) : Nat → Cursor → Read
  | 0, _ => none
  | steps + 1, c =>
    if c.atDocumentMark then none
    else
      match c.rest with
      | [] => none
      | b :: cs =>
        if isBlank b || isBreak b then do
          let (g, c) ← gap 0 {} c
          let (more, c) ← quotedFrom double steps c
          some (g.text ++ more, c)
        else if double && b = '\\' then
          match afterTakenBreak? c with
          | some after => do
            let (g, c) ← gap 0 { broken := true } after
            let (more, c) ← quotedFrom double steps c
            some (g.text ++ more, c)
          | none => do
            let (value, length) ← escape? cs
            let (more, c) ← quotedFrom double steps (c.skip (length + 1))
            some (value :: more, c)
        else if b = (if double then '"' else '\'') then
          if !double && cs.head? = some '\'' then do
            let (more, c) ← quotedFrom double steps (c.skip 2)
            some ('\'' :: more, c)
          else some ([], c.next)
        else do
          let (more, c) ← quotedFrom double steps c.next
          some (b :: more, c)

/-- Read quoted text, whose opening quote stands at the place. -/
def quoted (double : Bool) (c : Cursor) : Read :=
  quotedFrom double (c.rest.length + 1) c.next

/-! ## Block text -/

/-- Which line ends are kept at the end of block text. -/
inductive Ending where
  | strip
  | clip
  | keep
  deriving DecidableEq

/-- The signs after the mark of block text: how it ends, and how far it is indented. -/
def blockSigns (cs : List Char) : Option (Ending × Option Nat × Nat) :=
  let ending? : Char → Option Ending
    | '+' => some .keep
    | '-' => some .strip
    | _ => none
  let indent? (c : Char) : Option Nat := if Text.isDigit c then Text.digitValue? c else none
  let signs : Option Ending × Option Nat × Nat :=
    match cs with
    | [] => (none, none, 0)
    | a :: more =>
      match ending? a, indent? a with
      | some e, _ =>
        match more.head?.bind indent? with
        | some n => (some e, some n, 2)
        | none => (some e, none, 1)
      | none, some n =>
        match more.head?.bind ending? with
        | some e => (some e, some n, 2)
        | none => (none, some n, 1)
      | none, none => (none, none, 0)
  if signs.2.1 = some 0 then none else some (signs.1.getD .clip, signs.2)

/-- Read empty lines and the blanks before a line of block text. The indentation may be unknown:
then the answer also holds the largest column seen. -/
def emptyLines (indent : Option Nat) (widest : Nat) (breaks : List Char) :
    Nat → Cursor → Option (Nat × List Char × Cursor)
  | 0, _ => none
  | steps + 1, c =>
    let before (n : Nat) : Bool := indent.all (n < ·)
    match c.rest with
    | ' ' :: _ =>
      if before c.column then emptyLines indent widest breaks steps c.next
      else some (max widest c.column, breaks, c)
    | rest =>
      if rest.head? = some '\t' && before c.column then none
      else
        match c.lineBreak? with
        | some (b, after) => emptyLines indent (max widest c.column) (breaks ++ [b]) steps after
        | none => some (max widest c.column, breaks, c)

/-- Read the lines of block text on: `text` is the text so far, `last` the line end after it,
`breaks` the empty lines after that, `blank` tells that the last line began with a blank. -/
def blockLines (folded : Bool) (ending : Ending) (indent : Nat) (text : List Char)
    (last : Option Char) (breaks : List Char) (blank : Bool) : Nat → Cursor → Read
  | 0, _ => none
  | steps + 1, c =>
    if c.column = indent && !c.rest.isEmpty then do
      let startsBlank := c.rest.head?.any isBlank
      let joint :=
        if folded && last = some '\n' && !blank && !startsBlank then
          if breaks.isEmpty then [' '] else []
        else last.toList
      let (line, c) := c.span (!isBreak ·)
      let (last, c) := match c.lineBreak? with
        | some (b, after) => (some b, after)
        | none => (none, c)
      let (_, more, c) ← emptyLines (some indent) 0 [] (c.rest.length + 1) c
      let text := text ++ joint ++ breaks ++ line
      blockLines folded ending indent text last more startsBlank steps c
    else
      let kept := match ending with
        | .strip => []
        | .clip => last.toList
        | .keep => last.toList ++ breaks
      some (text ++ kept, c)

/-- Read block text, whose mark stands at the place; `parent` is the column that the lines must
be indented from. -/
def block (folded : Bool) (parent : Option Nat) (c : Cursor) : Read := do
  let (ending, indent, signs) ← blockSigns c.rest.tail
  let c := (c.skip (signs + 1)).skipBlanks.skipComment
  if !endsLine c.rest then none
  else
    let c := match c.lineBreak? with
      | some (_, after) => after
      | none => c
    let steps := c.rest.length + 1
    let known := indent.map ((parent.getD 0) + ·)
    let (widest, breaks, c) ← emptyLines known 0 [] steps c
    let least := max 1 ((parent.map (· + 1)).getD 0)
    let indent := known.getD (max widest least)
    blockLines folded ending indent [] none breaks false steps c

end ConstLookup.Yaml.Scalar
