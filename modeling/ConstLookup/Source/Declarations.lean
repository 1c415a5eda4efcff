import ConstLookup.Symbol.Basic

/-!
  The constants that a C source declares: its object-like macros and its enums.
-/

namespace ConstLookup

/-- An object-like macro. -/
structure MacroDecl where
  name : String
  body : String
  location : Location
  deriving DecidableEq, Repr

/-- A member of an enum with the text of its value. -/
structure MemberDecl where
  name : String
  value : String
  location : Location
  deriving DecidableEq, Repr

/-- An enum. -/
structure EnumDecl where
  name : String
  members : List MemberDecl
  location : Location
  deriving DecidableEq, Repr

/-- The declarations of one source in the order in which they stand there. -/
structure Declarations where
  macros : List MacroDecl := []
  enums : List EnumDecl := []
  /-- What is wrong with the source. -/
  errors : List String := []
  deriving DecidableEq, Repr

/-- The source declares no constant. -/
def Declarations.isEmpty (d : Declarations) : Bool := d.macros.isEmpty && d.enums.isEmpty

end ConstLookup
