/-!
  Text from UTF-8 bytes. Bytes that spell no character are marked: the longest start of a
  character that breaks off counts as one mark, and so does every byte that begins none.
-/

namespace ConstLookup.Text.Utf8

/-- A character that has begun. -/
structure Begun where
  /-- How many bytes are still to come. -/
  more : Nat
  /-- The number spelled so far. -/
  value : Nat
  /-- The least next byte. -/
  low : Nat
  /-- The greatest next byte. -/
  high : Nat
  deriving DecidableEq, Repr

/-- The character that a first byte begins. The next byte is bounded so that no character has two
spellings, none is a surrogate and none lies beyond the last one. -/
def begin? (b : Nat) : Option Begun :=
  if 0xC2 ≤ b && b ≤ 0xDF then some ⟨1, b - 0xC0, 0x80, 0xBF⟩
  else if b = 0xE0 then some ⟨2, 0, 0xA0, 0xBF⟩
  else if b = 0xED then some ⟨2, 0xD, 0x80, 0x9F⟩
  else if 0xE1 ≤ b && b ≤ 0xEF then some ⟨2, b - 0xE0, 0x80, 0xBF⟩
  else if b = 0xF0 then some ⟨3, 0, 0x90, 0xBF⟩
  else if 0xF1 ≤ b && b ≤ 0xF3 then some ⟨3, b - 0xF0, 0x80, 0xBF⟩
  else if b = 0xF4 then some ⟨3, 4, 0x80, 0x8F⟩
  else none

/-- What a byte outside of a character gives: a character, a mark, or the start of one. -/
def first (b : Nat) : List (Option Char) × Option Begun :=
  if b < 0x80 then ([some (Char.ofNat b)], none)
  else
    match begin? b with
    | some begun => ([], some begun)
    | none => ([none], none)

/-- What a byte gives after the start of a character, if there is one. -/
def next (begun : Option Begun) (b : Nat) : List (Option Char) × Option Begun :=
  match begun with
  | none => first b
  | some c =>
    if c.low ≤ b && b ≤ c.high then
      let value := c.value * 64 + (b - 0x80)
      if c.more = 1 then ([some (Char.ofNat value)], none)
      else ([], some ⟨c.more - 1, value, 0x80, 0xBF⟩)
    else
      let (found, begun) := first b
      (none :: found, begun)

/-- The characters of bytes after the start of a character; `none` marks what spells none. -/
def decodeFrom (begun : Option Begun) : List UInt8 → List (Option Char)
  | [] => if begun.isSome then [none] else []
  | b :: bs =>
    let (found, begun) := next begun b.toNat
    found ++ decodeFrom begun bs

/-- The characters of bytes; `none` marks what spells none. -/
def decode (bytes : List UInt8) : List (Option Char) := decodeFrom none bytes

/-- The text that bytes spell, with a replacement character for every mark. -/
def lossy (bytes : List UInt8) : String :=
  String.ofList ((decode bytes).map fun c => c.getD '\ufffd')

/-- The text that bytes spell, if all of them spell characters. -/
def strict? (bytes : List UInt8) : Option String :=
  ((decode bytes).mapM id).map String.ofList

end ConstLookup.Text.Utf8
