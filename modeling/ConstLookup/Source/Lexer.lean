import ConstLookup.Source.Token
import ConstLookup.Text.Word

/-!
  Splitting C source text into tokens. A directive may begin at any sign `#` outside literals
  and comments; the text after its word is read by the rules of that word.
-/

namespace ConstLookup.Source.Lexer

open ConstLookup.Text

/-! ## Blanks and comments -/

/-- A character between tokens. -/
def isSpace (c : Char) : Bool :=
  c = ' ' || c = '\t' || c = '\n' || c = '\x0b' || c = '\x0c' || c = '\r'

/-- The text after a line comment, whose opening slashes are read. A line end after a backslash
belongs to the comment. A single backslash at the end of the text does not. -/
def afterLineComment : List Char → List Char
  | [] => []
  | ['\\'] => ['\\']
  | ['\\', '\\'] => []
  | '\\' :: '\r' :: '\n' :: cs => afterLineComment cs
  | '\\' :: '\n' :: cs => afterLineComment cs
  | '\n' :: cs => '\n' :: cs
  | _ :: cs => afterLineComment cs

/-- The text after a block comment, whose opening is read; `none` if it does not end. -/
def afterBlockComment? : List Char → Option (List Char)
  | [] => none
  | '*' :: '/' :: cs => some cs
  | _ :: cs => afterBlockComment? cs

/-- The text after the comment that a text begins with. -/
def afterComment? : List Char → Option (List Char)
  | '/' :: '/' :: cs => some (afterLineComment cs)
  | '/' :: '*' :: cs => afterBlockComment? cs
  | _ => none

/-- The text after blanks and continued line ends. -/
def afterSpace : List Char → List Char
  | [] => []
  | '\\' :: '\r' :: '\n' :: cs => afterSpace cs
  | '\\' :: '\n' :: cs => afterSpace cs
  | c :: cs => if isSpace c then afterSpace cs else c :: cs

/-- The text after blanks, continued line ends and comments; every step but the last takes a
comment, so as many steps as there are characters suffice. -/
def afterGapFrom : Nat → List Char → List Char
  | 0, cs => cs
  | steps + 1, cs =>
    let rest := afterSpace cs
    match afterComment? rest with
    | some more => afterGapFrom steps more
    | none => rest

/-- The text after blanks, continued line ends and comments. -/
def afterGap (cs : List Char) : List Char := afterGapFrom (cs.length + 1) cs

/-- The text after blanks, continued line ends and comments of the current line. -/
def afterLineGap : Nat → List Char → List Char
  | 0, cs => cs
  | _, [] => []
  | steps + 1, '\\' :: '\r' :: '\n' :: cs => afterLineGap steps cs
  | steps + 1, '\\' :: '\n' :: cs => afterLineGap steps cs
  | steps + 1, c :: cs =>
    if isSpace c && c ≠ '\n' then afterLineGap steps cs
    else
      match afterComment? (c :: cs) with
      | some rest => afterLineGap steps rest
      | none => c :: cs

/-- The part of a text before the part that is left of it. -/
def consumed (cs rest : List Char) : List Char := cs.take (cs.length - rest.length)

/-! ## Words, numbers, literals and marks -/

/-- A character that begins a word: an underscore, a dollar sign or a letter of any script. The
letters are those that word boundaries in free text count, less the digits of ASCII. This takes in
the marks, joiners and other digits outside `XID_Start`, the property that grammars of C go by. -/
def startsWord (c : Char) : Bool := (isWord c && !isDigit c) || c = '$'

/-- A character of a word: one that word boundaries in free text count, or a dollar sign. This is
close to the property `XID_Continue`, but with the joiners and the enclosing marks and without the
middle dot. A universal character name is not read as part of a word. -/
def continuesWord (c : Char) : Bool := isWord c || c = '$'

/-- The text after a number, where `previous` is its last character read. -/
def afterNumber (previous : Char) : List Char → List Char
  | [] => []
  | c :: cs =>
    let sign := (c = '+' || c = '-') && ['e', 'E', 'p', 'P'].contains previous
    if isIdentPart c || c = '.' || c = '\'' || sign then afterNumber c cs else c :: cs

/-- The text after a literal that ends at `quote`, whose opening is read; `none` if the line
ends first. -/
def afterQuoted? (quote : Char) : List Char → Option (List Char)
  | [] => none
  | '\n' :: _ => none
  | '\\' :: '\r' :: '\n' :: cs => afterQuoted? quote cs
  | '\\' :: _ :: cs => afterQuoted? quote cs
  | c :: cs => if c = quote then some cs else afterQuoted? quote cs

/-- What may stand before the quote of a literal to name its encoding. -/
def encodings : List (List Char) := [[], ['L'], ['u'], ['U'], ['u', '8']]

/-- The quote of the literal that a text begins with, and the text after it. -/
def opening? (cs : List Char) : Option (Char × List Char) :=
  encodings.findSome? fun encoding =>
    if encoding.isPrefixOf cs then
      match cs.drop encoding.length with
      | '"' :: rest => some ('"', rest)
      | '\'' :: rest => some ('\'', rest)
      | _ => none
    else none

/-- The marks of more than one character, longest first. -/
def longMarks : List String :=
  ["...", "<<=", ">>=", "->", "++", "--", "<<", ">>", "<=", ">=", "==", "!=", "&&", "||", "+=",
    "-=", "*=", "/=", "%=", "&=", "|=", "^=", "##"]

/-- The marks of more than one character in a condition or a list of parameters, longest
first: two signs there are two marks. -/
def directiveMarks : List String := ["...", "<<", ">>", "<=", ">=", "==", "!=", "&&", "||"]

/-- The characters that are marks by themselves. -/
def shortMarks : List Char :=
  ['\x7b', '\x7d', '(', ')', '[', ']', ';', ',', ':', '.', '?', '~', '!', '<', '>', '=', '+',
    '-', '*', '/', '%', '&', '|', '^']

/-- The kind of the token that a text begins with, the text after it, and whether it is
complete: a literal must end, and one between single quotes must not be empty. The text does
not begin with a blank, a comment or a directive, and `marks` are the marks of more than one
character. -/
def lexeme (marks : List String) (c : Char) (cs : List Char) : TokenKind × List Char × Bool :=
  match opening? (c :: cs) with
  | some (quote, inside) =>
    match afterQuoted? quote inside with
    | some rest => (.quoted, rest, !(quote = '\'' && inside.head? = some '\''))
    | none => (.quoted, inside.dropWhile (· ≠ '\n'), false)
  | none =>
    if startsWord c then (.word, cs.dropWhile continuesWord, true)
    else if isDigit c || (c = '.' && (cs.head?.map isDigit).getD false) then
      (.number, afterNumber c cs, true)
    else
      match marks.find? fun m => m.toList.isPrefixOf (c :: cs) with
      | some m => (.mark, (c :: cs).drop m.length, true)
      | none => (.mark, cs, shortMarks.contains c && !(c = '/' && cs.head? = some '*'))

/-! ## Arguments of directives -/

/-- The text after a line end that the text begins with. -/
def afterNewline? : List Char → Option (List Char)
  | '\n' :: cs => some cs
  | '\r' :: '\n' :: cs => some cs
  | _ => none

/-- The text after the current line. -/
def afterLine (cs : List Char) : List Char := (cs.dropWhile (· ≠ '\n')).drop 1

/-- The text after an argument: it ends before a block comment or a line end. A slash takes the
character after it along, and a backslash a line end. -/
def afterArgument : List Char → List Char
  | [] => []
  | '/' :: '*' :: cs => '/' :: '*' :: cs
  | '/' :: [] => ['/']
  | '/' :: _ :: cs => afterArgument cs
  | '\\' :: '\r' :: '\n' :: cs => afterArgument cs
  | '\\' :: '\n' :: cs => afterArgument cs
  | '\n' :: cs => '\n' :: cs
  | _ :: cs => afterArgument cs

/-- What follows the word of a directive: its argument, if there is one, the text after the
directive, and whether the directive ends as it should. -/
structure Tail where
  value : Option (List Char)
  rest : List Char
  sound : Bool

/-- The end of a directive: a line end, perhaps after comments. Anything else is left out up to
the line end. -/
def endOfDirective (value : Option (List Char)) : Nat → List Char → Tail
  | 0, cs => { value := value, rest := cs, sound := false }
  | steps + 1, cs =>
    match afterNewline? cs with
    | some rest => { value := value, rest := rest, sound := true }
    | none =>
      match afterComment? (afterSpace cs) with
      | some rest => endOfDirective value steps rest
      | none => { value := value, rest := afterLine cs, sound := false }

/-- The argument and the end of a directive. A line end that does not follow at once is a blank
before the argument. -/
def tailFrom : Nat → List Char → Tail
  | 0, cs => { value := none, rest := cs, sound := false }
  | steps + 1, cs =>
    match afterNewline? cs with
    | some rest => { value := none, rest := rest, sound := true }
    | none =>
      let start := afterSpace cs
      match afterComment? start, start with
      | some rest, _ => tailFrom steps rest
      | none, [] => { value := none, rest := [], sound := false }
      | none, c :: more =>
        let rest := afterArgument more
        endOfDirective (some (c :: consumed more rest)) steps rest

/-- The argument and the end of a directive. -/
def tail (cs : List Char) : Tail := tailFrom (cs.length + 1) cs

/-! ## Conditions -/

/-- The tokens of the current line and the text after them. -/
def lineTokens : Nat → List Char → List Token × List Char
  | 0, cs => ([], cs)
  | steps + 1, cs =>
    match afterLineGap (cs.length + 1) cs with
    | [] => ([], [])
    | '\n' :: rest => ([], '\n' :: rest)
    | c :: more =>
      let (kind, rest, sound) := lexeme directiveMarks c more
      let (ts, after) := lineTokens steps rest
      let token : Token :=
        { kind := kind
          text := consumed (c :: more) rest
          gap := consumed cs (c :: more)
          position := {}
          sound := sound }
      (token :: ts, after)

/-- The binary operators of a condition. -/
def conditionOperators : List String :=
  ["+", "-", "*", "/", "%", "||", "&&", "|", "^", "&", "==", "!=", ">", ">=", "<=", "<", "<<",
    ">>"]

/-- The tokens form a condition: `operand` says that an operand comes next, `opened` lists the
open parentheses, each with a mark that it holds arguments. -/
def isConditionFrom (operand : Bool) (opened : List Bool) : List Token → Bool
  | [] => !operand && opened.isEmpty
  | t :: ts =>
    if operand then
      if ["!", "~", "-", "+"].any t.isMark then isConditionFrom true opened ts
      else if t.isMark "(" then isConditionFrom true (false :: opened) ts
      else if t.kind = .number || (t.kind = .quoted && t.text.getLast? = some '\'' && t.sound) then
        isConditionFrom false opened ts
      else if t.isWordOf "defined" then
        match ts with
        | a :: b :: c :: rest =>
          if a.isWord then isConditionFrom false opened (b :: c :: rest)
          else a.isMark "(" && b.isWord && c.isMark ")" && isConditionFrom false opened rest
        | a :: rest => a.isWord && isConditionFrom false opened rest
        | [] => false
      else if t.isWord then
        match ts with
        | a :: b :: rest =>
          if a.isMark "(" && b.isMark ")" then isConditionFrom false opened rest
          else if a.isMark "(" then isConditionFrom true (true :: opened) (b :: rest)
          else isConditionFrom false opened (a :: b :: rest)
        | rest => isConditionFrom false opened rest
      else false
    else if conditionOperators.any t.isMark then isConditionFrom true opened ts
    else
      match opened with
      | _ :: more =>
        if t.isMark ")" then isConditionFrom false more ts
        else t.isMark "," && opened.head? = some true && isConditionFrom true opened ts
      | [] => false

/-- The tokens form a condition. -/
def isCondition (ts : List Token) : Bool := isConditionFrom true [] ts

/-- The longest start of the tokens that forms a condition. -/
def conditionStart (ts : List Token) : Option (List Token) :=
  ((List.range (ts.length + 1)).reverse.map (ts.take ·)).find? isCondition

/-- The test of a directive with a condition, the text after it, and whether all of the line
belongs to the condition. -/
def conditionTest (cs : List Char) : Test × List Char × Bool :=
  let (ts, rest) := lineTokens (cs.length + 1) cs
  match conditionStart ts with
  | some start => (.condition (some (textOf start)), rest, start.length = ts.length)
  | none => (.condition (if ts.isEmpty then none else some (textOf ts)), rest, false)

/-! ## Directives -/

/-- The word that follows on the current line, and the text after it. -/
def nextWord? (cs : List Char) : Option (String × List Char) :=
  match afterLineGap (cs.length + 1) cs with
  | [] => none
  | c :: more =>
    if startsWord c then
      let rest := more.dropWhile continuesWord
      some (String.ofList (c :: consumed more rest), rest)
    else none

/-- A directive that asks whether a macro is defined. -/
def nameTest (test : Option String → Test) (cs : List Char) : Test × List Char × Bool :=
  match nextWord? cs with
  | some (name, rest) => (test (some name), rest, true)
  | none => (test none, cs, false)

/-- Whether the parameters of a function-like macro are names with commas between them, the
last one perhaps an ellipsis. -/
def areParameters : List Token → Bool
  | [] => true
  | [t] => t.isWord || t.isMark "..."
  | t :: u :: rest =>
    (t.isWord || t.isMark "...") && u.isMark "," && !rest.isEmpty && areParameters rest

/-- The definition of a macro after the directive's word. -/
def definition (cs : List Char) : Directive × List Char × Bool :=
  match nextWord? cs with
  | none => (.inert, afterLine cs, false)
  | some (name, '(' :: rest) =>
    let inside := rest.takeWhile (· ≠ ')')
    let (parameters, _) := lineTokens (inside.length + 1) inside
    let t := tail (rest.drop (inside.length + 1))
    (.defineFunction name, t.rest, t.sound && areParameters parameters)
  | some (name, rest) =>
    let t := tail rest
    (.define name (t.value.map String.ofList), t.rest, t.sound)

/-- The text after the path of an include. -/
def afterPath? (cs : List Char) : Option (List Char) :=
  match afterLineGap (cs.length + 1) cs with
  | '"' :: rest => afterQuoted? '"' rest
  | '<' :: rest =>
    match rest.dropWhile fun c => c ≠ '>' && c ≠ '\n' with
    | '>' :: more => some more
    | _ => none
  | c :: rest => if startsWord c then some (rest.dropWhile continuesWord) else none
  | [] => none

/-- An include after the directive's word. -/
def inclusion (cs : List Char) : Directive × List Char × Bool :=
  match afterPath? cs with
  | some rest =>
    let t := endOfDirective none (rest.length + 1) rest
    (.inert, t.rest, t.sound)
  | none => (.inert, afterLine cs, false)

/-- The directive that begins with the given word, written `spelling` with its sign. -/
def directive (word spelling : String) (cs : List Char) : Directive × List Char × Bool :=
  let opens (r : Test × List Char × Bool) := (Directive.opens r.1, r.2)
  let elseOpens (r : Test × List Char × Bool) := (Directive.elseOpens r.1, r.2)
  match word with
  | "define" => definition cs
  | "include" => inclusion cs
  | "if" => opens (conditionTest cs)
  | "ifdef" => opens (nameTest .defined cs)
  | "ifndef" => opens (nameTest .undefined cs)
  | "elif" => elseOpens (conditionTest cs)
  | "elifdef" => elseOpens (nameTest .defined cs)
  | "elifndef" => elseOpens (nameTest .undefined cs)
  | "else" => (.otherwise, cs, true)
  | "endif" => (.endif, cs, true)
  | _ =>
    let t := tail cs
    (.call spelling (t.value.map String.ofList), t.rest, t.sound)

/-- The directive after a sign `#`. Its word is made of ASCII characters and does not begin with an
underscore. -/
def hash (cs : List Char) : TokenKind × List Char × Bool :=
  let start := cs.dropWhile fun c => c = ' ' || c = '\t'
  let rest := start.dropWhile isIdentPart
  let word := consumed start rest
  if word.isEmpty || word.head? = some '_' then (.mark, cs, false)
  else
    let (d, after, sound) :=
      directive (String.ofList word) (String.ofList ('#' :: consumed cs rest)) rest
    (.directive d, after, sound)

/-! ## Tokens of a text -/

/-- The tokens of a text that begins at the given place. Every token takes a character, so as
many steps as there are characters suffice. -/
def tokensFrom : Nat → Position → List Char → List Token
  | 0, _, _ => []
  | steps + 1, position, cs =>
    match afterGap cs with
    | [] => []
    | c :: more =>
      let gap := consumed cs (c :: more)
      let start := position.afterAll gap
      let (kind, rest, sound) := if c = '#' then hash more else lexeme longMarks c more
      let text := consumed (c :: more) rest
      { kind := kind, text := text, gap := gap, position := start, sound := sound } ::
        tokensFrom steps (start.afterAll text) rest

/-- The tokens of a source text. A byte-order mark at its start belongs to no token. -/
def tokens : List Char → List Token
  | '\ufeff' :: cs => tokensFrom (cs.length + 1) (Position.after {} '\ufeff') cs
  | cs => tokensFrom (cs.length + 1) {} cs

end ConstLookup.Source.Lexer
