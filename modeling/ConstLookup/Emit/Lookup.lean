import ConstLookup.Table.Basic

/-!
  C code that finds the label of a value: a macro that copies the label into a buffer, or an
  inline function that returns it. Both announce the size of the longest label.
-/

namespace ConstLookup.Emit

open ConstLookup.Text

/-- A line indented by `n` levels of four blanks. -/
def indent (n : Nat) (line : String) : String :=
  String.ofList (List.replicate (4 * n) ' ') ++ line

/-- Lines joined into one logical line. -/
def continued (lines : List String) : String := "\\\n".intercalate lines

/-- The line that announces a size. -/
def sizeLine (name suffix : String) (size : Nat) : String :=
  s!"#define {upper name}_{suffix} ({size})"

/-- The line that announces the longest label. -/
def maxLengthLine (t : LookupTable) : String := sizeLine t.name "MAX_LEN" t.maxLabelLength

/-- The lines of a macro body for one entry. -/
def macroCase (e : Entry) : List String :=
  [indent 1 s!"case {e.representative.name}:",
    indent 2 s!"strcpy(buf, \"{e.label}\");",
    indent 2 "break;"]

/-- The lines of the macro that copies the label of `n` into `buf`. -/
def macroLines (t : LookupTable) : List String :=
  [s!"#define {upper t.name}_PARSER(n, buf) do \x7b", indent 1 "switch (n) \x7b"] ++
    t.entries.flatMap macroCase ++
    [indent 1 "default:", indent 2 s!"strcpy(buf, \"{unknownLabel}\");", indent 2 "break;",
      indent 1 "\x7d", "\x7d while (0)"]

/-- The macro form of a table; nothing for a table without entries. -/
def renderMacro (t : LookupTable) : String :=
  if t.entries.isEmpty then "" else maxLengthLine t ++ "\n" ++ continued (macroLines t)

/-- The lines of a function body for one entry. -/
def inlineCase (e : Entry) : List String :=
  [indent 1 s!"case {e.representative.name}:", indent 2 s!"return \"{e.label}\";"]

/-- The lines of the function that returns the label of `n`. -/
def inlineLines (t : LookupTable) (type : IntType) : List String :=
  [s!"static inline const char *{lower t.name}_parser({type.spelling} n) \x7b",
    indent 1 "switch (n) \x7b"] ++
    t.entries.flatMap inlineCase ++
    [indent 1 "default:", indent 2 s!"return \"{unknownLabel}\";", indent 1 "\x7d", "\x7d"]

/-- The function form of a table; nothing for a table without entries. -/
def renderInline (t : LookupTable) (type : IntType) : String :=
  if t.entries.isEmpty then ""
  else "\n".intercalate (maxLengthLine t :: inlineLines t type)

end ConstLookup.Emit
