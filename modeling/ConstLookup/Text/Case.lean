import ConstLookup.Text.CaseTable
import ConstLookup.Text.Word

/-!
  Upper and lower case of strings. One character may become several; the lower case of a sigma
  depends on whether it ends a word.
-/

namespace ConstLookup.Text

/-- Where the run moves `n`, if it covers `n`. -/
def CaseRun.image? (run : CaseRun) (n : Nat) : Option Char :=
  if run.first ≤ n && n ≤ run.last && (n - run.first) % run.step = 0 then
    some (Char.ofNat (Int.toNat (n + run.shift)))
  else none

/-- The mapping of a character above ASCII by a table of runs and a table of single cases. -/
def mapCase (runs : List CaseRun) (special : List (Nat × List Nat)) (c : Char) : List Char :=
  match special.find? (·.1 = c.toNat) with
  | some (_, image) => image.map Char.ofNat
  | none => [(runs.findSome? (·.image? c.toNat)).getD c]

/-- Upper case of one character. -/
def upperChar (c : Char) : List Char :=
  if c.toNat < 128 then [c.toUpper] else mapCase upperRuns upperSpecial c

/-- Lower case of one character, without regard to its neighbours. -/
def lowerChar (c : Char) : List Char :=
  if c.toNat < 128 then [c.toLower] else mapCase lowerRuns lowerSpecial c

/-- A character that has a case. -/
def isCased (c : Char) : Bool :=
  if c.toNat < 128 then isAsciiLetter c else inRanges casedRanges c.toNat

/-- A character that is passed over when the case of a neighbour is looked for. -/
def isCaseIgnorable (c : Char) : Bool :=
  if c.toNat < 128 then c = '\'' || c = '.' || c = ':' || c = '^' || c = '\x60'
  else inRanges caseIgnorableRanges c.toNat

/-- The first character that is not ignorable has a case. -/
def startsCased (cs : List Char) : Bool :=
  match cs.dropWhile isCaseIgnorable with
  | c :: _ => isCased c
  | [] => false

/-- Upper case of a list of characters. -/
def upperChars (cs : List Char) : List Char := cs.flatMap upperChar

/-- Lower case after the characters `before`, given in reverse: a capital sigma that ends a
word becomes the final form. -/
def lowerFrom (before : List Char) : List Char → List Char
  | [] => []
  | c :: cs =>
    let image :=
      if c = 'Σ' then
        if startsCased before && !startsCased cs then ['ς'] else ['σ']
      else lowerChar c
    image ++ lowerFrom (c :: before) cs

/-- Upper case of a string. -/
def upper (s : String) : String := String.ofList (upperChars s.toList)

/-- Lower case of a string. -/
def lower (s : String) : String := String.ofList (lowerFrom [] s.toList)

/-- Equality without regard to the case of ASCII letters. -/
def sameAsciiCase (a b : String) : Bool :=
  a.toList.map Char.toLower = b.toList.map Char.toLower

theorem upperChars_append (a b : List Char) :
    upperChars (a ++ b) = upperChars a ++ upperChars b := by
  simp [upperChars]

end ConstLookup.Text
