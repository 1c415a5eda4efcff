import ConstLookup.Text.Word

/-!
  Hexadecimal literals are marked before an expression is split into tokens: `0x1f` becomes
  `0x'1f'`, so that its digits are never mistaken for an exponent, a suffix or a name.
-/

namespace ConstLookup.HexShield

open ConstLookup.Text

/-- Mark every literal of the text that follows a word character (`inWord`) or does not: `0x`
or `0X` at the start of a word, with all hexadecimal digits after it, at least one. -/
def shieldFrom (inWord : Bool) : List Char → List Char
  | [] => []
  | '0' :: x :: cs =>
    if !inWord && (x = 'x' || x = 'X') && !(cs.takeWhile isHexDigit).isEmpty then
      '0' :: 'x' :: '\'' :: (cs.takeWhile isHexDigit ++
        '\'' :: shieldFrom true (cs.dropWhile isHexDigit))
    else '0' :: shieldFrom true (x :: cs)
  | c :: cs => c :: shieldFrom (isWord c) cs
termination_by cs => cs.length
decreasing_by
  · have := (List.dropWhile_suffix isHexDigit (l := cs)).length_le
    simp only [List.length_cons]; omega
  · simp
  · simp

/-- Mark every hexadecimal literal of a text. -/
def shield (s : String) : String := String.ofList (shieldFrom false s.toList)

end ConstLookup.HexShield
