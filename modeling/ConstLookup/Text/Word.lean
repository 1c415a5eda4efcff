import ConstLookup.Text.WordTable

/-!
  Word characters. An identifier of C is made of ASCII word characters only; the boundary of a
  word inside free text counts letters of every script.
-/

namespace ConstLookup.Text

/-- Whether `n` lies in one of the inclusive ranges. -/
def inRanges (ranges : List (Nat × Nat)) (n : Nat) : Bool :=
  ranges.any fun r => r.1 ≤ n && n ≤ r.2

/-- A letter `A` to `Z` or `a` to `z`. -/
def isAsciiLetter (c : Char) : Bool :=
  ('A' ≤ c && c ≤ 'Z') || ('a' ≤ c && c ≤ 'z')

/-- A digit `0` to `9`. -/
def isDigit (c : Char) : Bool := '0' ≤ c && c ≤ '9'

/-- A digit, or a letter `A` to `F` or `a` to `f`. -/
def isHexDigit (c : Char) : Bool :=
  isDigit c || ('A' ≤ c && c ≤ 'F') || ('a' ≤ c && c ≤ 'f')

/-- A letter or an underscore: what an identifier starts with. -/
def isIdentStart (c : Char) : Bool := isAsciiLetter c || c = '_'

/-- A letter, a digit or an underscore: what an identifier is made of. -/
def isIdentPart (c : Char) : Bool := isAsciiLetter c || isDigit c || c = '_'

/-- A letter, mark, decimal digit, connector or joiner of any script. -/
def isWord (c : Char) : Bool :=
  if c.toNat < 128 then isIdentPart c else inRanges wordRanges c.toNat

/-- A non-empty ASCII identifier that does not start with a digit. -/
def isIdentifier : List Char → Bool
  | [] => false
  | c :: cs => isIdentStart c && cs.all isIdentPart

/-- Value of a digit or of a letter counted from ten, in either case. -/
def digitValue? (c : Char) : Option Nat :=
  if isDigit c then some (c.toNat - '0'.toNat)
  else if 'a' ≤ c && c ≤ 'z' then some (c.toNat - 'a'.toNat + 10)
  else if 'A' ≤ c && c ≤ 'Z' then some (c.toNat - 'A'.toNat + 10)
  else none

/-- Continue the number `value` with the digits that follow, in base `radix`. -/
def digitsFrom? (radix value : Nat) : List Char → Option Nat
  | [] => some value
  | c :: cs =>
    match digitValue? c with
    | some d => if d < radix then digitsFrom? radix (value * radix + d) cs else none
    | none => none

/-- The number that a non-empty list of digits spells in base `radix`. -/
def digits? (radix : Nat) (cs : List Char) : Option Nat :=
  if cs.isEmpty then none else digitsFrom? radix 0 cs

theorem isWord_of_isIdentPart {c : Char} (h : isIdentPart c = true) (hc : c.toNat < 128) :
    isWord c = true := by
  simp [isWord, hc, h]

end ConstLookup.Text
