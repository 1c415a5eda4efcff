import ConstLookup.Text.Blank
import ConstLookup.Text.Word

/-!
  Lines of a text and searches inside one line. A line keeps the line feed that ends it, so the
  lines of a text joined together are the text again (`flatten_lines`).
-/

namespace ConstLookup.Text

/-- The lines of a text, each with its line feed; `begun` is the open line, reversed. -/
def linesFrom (begun : List Char) : List Char → List (List Char)
  | [] => if begun.isEmpty then [] else [begun.reverse]
  | c :: cs =>
    if c = '\n' then (c :: begun).reverse :: linesFrom [] cs else linesFrom (c :: begun) cs

/-- The lines of a text, each with the line feed that ends it. -/
def lines (cs : List Char) : List (List Char) := linesFrom [] cs

/-- A blank of a line: space or tabulator. -/
def isLineBlank (c : Char) : Bool := c = ' ' || c = '\t'

/-- Drop spaces and tabulators at the start. -/
def skipLineBlanks (cs : List Char) : List Char := cs.dropWhile isLineBlank

/-- A line without the line feed at its end, and without the carriage return before it. -/
def chomp (line : List Char) : List Char :=
  match line.reverse with
  | '\n' :: '\r' :: r => r.reverse
  | '\n' :: r => r.reverse
  | _ => line

/-- The text after `start`, if the text begins with it. -/
def after? (start : List Char) (cs : List Char) : Option (List Char) :=
  if start.isPrefixOf cs then some (cs.drop start.length) else none

/-- The text after the whole word `word`, if the text begins with it. -/
def afterWord? (word : String) (cs : List Char) : Option (List Char) :=
  match after? word.toList cs with
  | some [] => some []
  | some (c :: rest) => if isWord c then none else some (c :: rest)
  | none => none

/-- The text holds `part`. -/
def containsText (part : List Char) : List Char → Bool
  | [] => part.isEmpty
  | c :: cs => part.isPrefixOf (c :: cs) || containsText part cs

/-- The text holds the whole word `word`, where `inWord` says that a word character stands
before the text. -/
def containsWord (word : String) (inWord : Bool) : List Char → Bool
  | [] => false
  | c :: cs =>
    (!inWord && (afterWord? word (c :: cs)).isSome) || containsWord word (isWord c) cs

theorem flatten_linesFrom (begun cs : List Char) :
    (linesFrom begun cs).flatten = begun.reverse ++ cs := by
  induction cs generalizing begun with
  | nil =>
    unfold linesFrom
    split
    · next h => simp [List.isEmpty_iff.mp h]
    · simp
  | cons c cs ih =>
    unfold linesFrom
    split
    · simp [ih]
    · rw [ih]; simp

theorem flatten_lines (cs : List Char) : (lines cs).flatten = cs := by
  simp [lines, flatten_linesFrom]

end ConstLookup.Text
