import ConstLookup.Emit.Lookup

/-!
  C code that writes the labels of all flags contained in a value, joined by ` | `. The code is
  built as statements on a buffer, which are then printed; its announced size counts every label
  and separator.
-/

namespace ConstLookup.Emit

open ConstLookup.Text

/-- A statement on the buffer `buf`, with the value `n` at hand. -/
inductive Statement where
  /-- Make the buffer empty. -/
  | clear
  /-- Put a text into the buffer. -/
  | copy (text : String)
  /-- Put a text after what the buffer holds. -/
  | append (text : String)
  /-- Append a text if the buffer is not empty. -/
  | appendIfWritten (text : String)
  /-- Put a text into the buffer if it is empty. -/
  | copyIfEmpty (text : String)
  /-- Run the statements if `n` contains every bit of a constant. -/
  | ifFlag (symbol : String) (body : List Statement)
  /-- Run the first statements if `n` is zero, else the second ones. -/
  | ifZero (body otherwise : List Statement)
  /-- Run the statements. -/
  | block (body : List Statement)

mutual

/-- The lines of a statement. -/
def Statement.lines : Statement → List String
  | .clear => ["(buf)[0] = '\\0';"]
  | .copy text => [s!"strcpy(buf, \"{text}\");"]
  | .append text => [s!"strcat(buf, \"{text}\");"]
  | .appendIfWritten text => [s!"if ((buf)[0] != '\\0') strcat(buf, \"{text}\");"]
  | .copyIfEmpty text => [s!"if ((buf)[0] == '\\0') strcpy(buf, \"{text}\");"]
  | .ifFlag symbol body =>
    s!"if (((n) & ({symbol})) == ({symbol})) \x7b" :: (Statement.bodyLines body ++ ["\x7d"])
  | .ifZero body otherwise =>
    "if ((n) == 0) \x7b" :: (Statement.bodyLines body ++
      "\x7d else \x7b" :: (Statement.bodyLines otherwise ++ ["\x7d"]))
  | .block body => "\x7b" :: (Statement.bodyLines body ++ ["\x7d"])

/-- The lines of statements one level further in. -/
def Statement.bodyLines : List Statement → List String
  | [] => []
  | s :: rest => s.lines.map (indent 1) ++ Statement.bodyLines rest

end

/-- What stands between two labels. -/
def maskSeparator : String := " | "

/-- The entry with value zero. -/
def zeroEntry? (t : LookupTable) : Option Entry :=
  t.entries.find? (·.representative.value = 0)

/-- The entries with values other than zero. -/
def flagEntries (t : LookupTable) : List Entry :=
  t.entries.filter (·.representative.value ≠ 0)

/-- The bytes of all labels. -/
def labelBytes : List Entry → Nat
  | [] => 0
  | e :: es => e.label.utf8ByteSize + labelBytes es

/-- Bytes that hold every label with separators, or the label for zero, or the one for unknown
values, with a terminator. -/
def maskMaxLength (t : LookupTable) : Nat :=
  let flags := flagEntries t
  let all := labelBytes flags + maskSeparator.utf8ByteSize * (flags.length - 1) + 1
  let whenZero := match zeroEntry? t with
    | some e => e.label.utf8ByteSize + 1
    | none => 0
  max (max all whenZero) (unknownLabel.utf8ByteSize + 1)

/-- The statement that writes one flag. -/
def flagStatement (e : Entry) : Statement :=
  .ifFlag e.representative.name [.appendIfWritten maskSeparator, .append e.label]

/-- The statements that write the flags of `n`. -/
def maskStatements (t : LookupTable) : List Statement :=
  let flags := (flagEntries t).map flagStatement
  let write := match zeroEntry? t with
    | some e => .ifZero [.copy e.label] flags
    | none => .block flags
  [.clear, write, .copyIfEmpty unknownLabel]

/-- The line that announces the longest text. -/
def maskMaxLengthLine (t : LookupTable) : String := sizeLine t.name "MASK_MAX_LEN" (maskMaxLength t)

/-- The lines of the macro that writes the flags of `n` into `buf`. -/
def maskMacroLines (t : LookupTable) : List String :=
  s!"#define {upper t.name}_MASK_PARSER(n, buf) do \x7b" ::
    (Statement.bodyLines (maskStatements t) ++ ["\x7d while (0)"])

/-- The lines of the function that writes the flags of `n` into `buf`. -/
def maskInlineLines (t : LookupTable) (type : IntType) : List String :=
  s!"static inline const char *{lower t.name}_mask_parser({type.spelling} n, char *buf) \x7b" ::
    (Statement.bodyLines (maskStatements t) ++ [indent 1 "return buf;", "\x7d"])

/-- The flag writer of a table, as a function if there is a type; nothing for a table without
entries. -/
def renderMask (t : LookupTable) (type : Option IntType) : String :=
  if t.entries.isEmpty then ""
  else
    maskMaxLengthLine t ++ "\n" ++
      match type with
      | some type => "\n".intercalate (maskInlineLines t type)
      | none => continued (maskMacroLines t)

end ConstLookup.Emit
