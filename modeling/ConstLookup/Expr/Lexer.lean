import ConstLookup.Expr.Error
import ConstLookup.Text.Blank
import ConstLookup.Text.Word

/-!
  Splitting an expression into tokens. Each token is kept with its offset in bytes. The text is
  expected with its hexadecimal literals marked.
-/

namespace ConstLookup.Lexer

open ConstLookup.Text

/-- A token, or the fault found, with the text after it. -/
abbrev Scan := Except EvalError (Token × List Char)

/-- The natural, if it fits the word. -/
def wordToken (v : Nat) : Except EvalError Token :=
  if v < Nat.pow 2 127 then .ok (.int v) else .error .overflow

/-- A natural below `2 ^ 128` in base `radix`. -/
def unsigned128? (radix : Nat) (cs : List Char) : Option Nat :=
  (digits? radix cs).filter (· < Nat.pow 2 128)

/-- An integer of the word in base `radix`, with an optional sign. -/
def signed? (radix : Nat) (cs : List Char) : Option Int :=
  let (negative, body) := Double.splitSign cs
  let value := (digits? radix body).map fun n => if negative then -(n : Int) else (n : Int)
  value.filter fun v => decide (InWord v)

/-- A letter of an integer suffix. -/
def isIntSuffixLetter (c : Char) : Bool := c = 'u' || c = 'U' || c = 'l' || c = 'L'

/-- A letter of a float suffix. -/
def isFloatSuffixLetter (c : Char) : Bool := c = 'f' || c = 'F' || c = 'l' || c = 'L'

/-- Read a marked hexadecimal literal after its opening quote. -/
def hexLiteral (offset : Nat) (cs : List Char) : Scan := do
  let digits := cs.takeWhile (· ≠ '\'')
  match cs.dropWhile (· ≠ '\'') with
  | [] => .error (.malformed offset .unterminatedHex)
  | _ :: rest =>
    let unsigned := match digits with
      | '+' :: ds => ds
      | ds => ds
    match unsigned128? 16 unsigned with
    | none => .error (.malformed offset (.invalidHexDigits (String.ofList digits)))
    | some v => return (← wordToken v, rest.dropWhile isIntSuffixLetter)

/-- The characters that continue a number after `previous`: letters, digits, points,
underscores, and a sign after an exponent letter unless the number is binary. -/
def numberSpan (binary : Bool) (previous : Char) : List Char → List Char × List Char
  | [] => ([], [])
  | c :: cs =>
    let sign := (c = '+' || c = '-') && (previous = 'e' || previous = 'E') && !binary
    if isIdentPart c || c = '.' || sign then
      let (more, rest) := numberSpan binary c cs
      (c :: more, rest)
    else ([], c :: cs)

/-- Whether a number is written in binary. -/
def startsBinary : List Char → Bool
  | '0' :: 'b' :: _ => true
  | _ => false

/-- The value of the text of a number. -/
def numberToken (offset : Nat) (text : List Char) : Except EvalError Token :=
  let bad := EvalError.malformed offset (.invalidNumber (String.ofList text))
  if text.contains '.' || (!startsBinary text && (text.contains 'e' || text.contains 'E')) then
    match Double.read? (dropEndWhile isFloatSuffixLetter text) with
    | some v => .ok (.float v)
    | none => .error bad
  else
    let value := match dropEndWhile isIntSuffixLetter text with
      | '0' :: 'b' :: ds | '0' :: 'B' :: ds => unsigned128? 2 ds
      | '0' :: d :: ds => unsigned128? 8 (d :: ds)
      | ds => unsigned128? 10 ds
    match value with
    | some v => wordToken v
    | none => .error bad

/-- The character that stands for itself or the value of an escape sequence. -/
def characterValue (offset : Nat) (body : List Char) : Except EvalError Int :=
  let escape (radix : Nat) (digits : List Char) (text : List Char) : Except EvalError Int :=
    match signed? radix digits with
    | some v => .ok v
    | none => .error (.malformed offset (.invalidEscape (String.ofList text)))
  match body with
  | ['\\', 'n'] => .ok 10
  | ['\\', 't'] => .ok 9
  | ['\\', 'r'] => .ok 13
  | ['\\', '0'] => .ok 0
  | ['\\', '\\'] => .ok 92
  | ['\\', 'a'] => .ok 7
  | ['\\', 'b'] => .ok 8
  | ['\\', 'f'] => .ok 12
  | ['\\', 'v'] => .ok 11
  | '\\' :: 'x' :: digits => escape 16 digits ('x' :: digits)
  | '\\' :: digits => escape 8 digits digits
  | [c] => .ok c.toNat
  | _ => .error (.malformed offset (.invalidCharacter (String.ofList body)))

/-- Read a character literal after its opening quote. -/
def characterLiteral (offset : Nat) (cs : List Char) : Scan :=
  match cs.dropWhile (· ≠ '\'') with
  | [] => .error (.malformed offset .unterminatedCharacter)
  | _ :: rest => (characterValue offset (cs.takeWhile (· ≠ '\''))).map fun v => (.int v, rest)

/-- The first mark that the text starts with, and the text after it. -/
def mark? (cs : List Char) : Option (Mark × List Char) :=
  Mark.all.findSome? fun m =>
    if m.text.toList.isPrefixOf cs then some (m, cs.drop m.text.toList.length) else none

/-- Read a number that starts with `c`. -/
def number (offset : Nat) (c : Char) (cs : List Char) : Scan :=
  let (more, rest) := numberSpan (startsBinary (c :: cs)) c cs
  (numberToken offset (c :: more)).map fun t => (t, rest)

/-- Whether a text starts a marked hexadecimal literal. -/
def startsHex : List Char → Bool
  | '0' :: x :: '\'' :: _ => x = 'x' || x = 'X'
  | _ => false

/-- The next token of a text that starts with `c` and is not blank there. -/
def nextToken (offset : Nat) (c : Char) (cs : List Char) : Scan :=
  if startsHex (c :: cs) then hexLiteral offset (cs.drop 2)
  else if isDigit c || (c = '.' && (cs.head?.map isDigit).getD false) then number offset c cs
  else if c = '\'' then characterLiteral offset cs
  else if c = '"' then .error (.unsupported "string literal")
  else if isIdentStart c then
    .ok (.ident (String.ofList (c :: cs.takeWhile isIdentPart)), cs.dropWhile isIdentPart)
  else
    match mark? (c :: cs) with
    | some (m, rest) => .ok (.mark m, rest)
    | none => .error (.unsupported c.toString)

/-- The tokens of a text that starts at the given offset. A token never takes more than the
text, so as many steps as there are characters suffice. -/
def tokensFrom : Nat → Nat → List Char → Except EvalError (List (Token × Nat))
  | 0, _, _ => .ok []
  | _, _, [] => .ok []
  | steps + 1, offset, c :: cs =>
    if isAsciiBlank c then tokensFrom steps (offset + c.utf8Size) cs
    else do
      let (token, rest) ← nextToken offset c cs
      let width := byteLength (c :: cs) - byteLength rest
      return (token, offset) :: (← tokensFrom steps (offset + width) rest)

/-- The tokens of a text, each with its offset in bytes. -/
def tokens (cs : List Char) : Except EvalError (List (Token × Nat)) :=
  tokensFrom cs.length 0 cs

end ConstLookup.Lexer
