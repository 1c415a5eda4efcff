import ConstLookup.Emit.Mask
import ConstLookup.Path

/-!
  The generated header: its includes, then the code of every table.
-/

namespace ConstLookup.Emit

/-- The form of the generated lookups. -/
inductive Mode where
  /-- Macros that copy the label into a buffer. -/
  | copying
  /-- Inline functions that return the label. -/
  | inline
  deriving DecidableEq, Repr

/-- How code is generated. -/
structure Options where
  mode : Mode := .copying
  /-- Include the input by its file name instead of its path. -/
  basename : Bool := true
  deriving DecidableEq, Repr

/-- What stands between two tables. -/
def tableSeparator : String := "\n\n\n"

/-- The parameter type of the functions for a table; without one macros are generated. -/
def Options.inlineType (o : Options) (t : LookupTable) : Option IntType :=
  match o.mode with
  | .inline => t.intType
  | .copying => none

/-- The code of a table, with its flag writer if the table is a mask. -/
def renderTable (o : Options) (t : LookupTable) : String :=
  let type := o.inlineType t
  let value := match type with
    | some type => renderInline t type
    | none => renderMacro t
  if t.isMask && !value.isEmpty then value ++ tableSeparator ++ renderMask t type else value

/-- The spelling of the input in the generated include. -/
def Options.includePath (o : Options) (input : String) : String :=
  if o.basename then (Path.fileName? input).getD input else input

/-- Some table is generated as a function, whose parameter has a fixed width. -/
def needsFixedWidth (o : Options) (headers : List HeaderTables) : Bool :=
  headers.any fun h => h.tables.any fun t => !t.entries.isEmpty && (o.inlineType t).isSome

/-- The lines before the tables. -/
def preamble (o : Options) (input : String) (headers : List HeaderTables) : String :=
  "#pragma once\n" ++
    (if needsFixedWidth o headers then "#include <stdint.h>\n" else "") ++
    "#include <string.h>\n" ++ s!"#include \"{o.includePath input}\""

/-- The code of one header's tables, after a comment with its path if asked for; nothing if no
table has code. -/
def renderSection (o : Options) (comment : Bool) (h : HeaderTables) : Option String :=
  match (h.tables.map (renderTable o)).filter (!·.isEmpty) with
  | [] => none
  | tables =>
    let body := tableSeparator.intercalate tables
    some (if comment then s!"/* {h.path} */\n{body}" else body)

/-- The generated header for an input and the tables of its headers. -/
def renderHeader (o : Options) (input : String) (headers : List HeaderTables) : String :=
  let sections := headers.filterMap (renderSection o (1 < headers.length))
  preamble o input headers ++ tableSeparator ++ tableSeparator.intercalate sections ++ "\n"

end ConstLookup.Emit
