import ConstLookup.Expr.Number

/-!
  Symbols: the named constants of a program, each with the place it was declared at and either
  the text of its expression or its number.
-/

namespace ConstLookup

/-- Where a declaration stands: lines count from one, columns count bytes from zero. -/
structure Location where
  file : String
  line : Nat
  column : Nat
  deriving DecidableEq, Repr

/-- A location as `file:line:column`. -/
def Location.text (l : Location) : String := s!"{l.file}:{l.line}:{l.column}"

/-- What declared a symbol. -/
inductive SymbolKind where
  /-- An object-like `#define`. -/
  | definition
  /-- A member of an enum. -/
  | enumerator
  /-- A definition given on the command line. -/
  | commandLine
  deriving DecidableEq, Repr

/-- The value of a symbol: the text of its expression until it is folded, then its number. -/
inductive SymbolValue where
  | expr (text : String)
  | number (n : Number)
  deriving Inhabited

namespace SymbolValue

/-- The number, once folded. -/
def number? : SymbolValue → Option Number
  | expr _ => none
  | number n => some n

/-- The integer, if folded to one. -/
def int? : SymbolValue → Option Int
  | number (.int v) => some v
  | _ => none

/-- The symbol has a number. -/
def isResolved (v : SymbolValue) : Bool := v.number?.isSome

/-- Apply `f` to the text of an expression. -/
def mapExpr (f : String → String) : SymbolValue → SymbolValue
  | expr text => expr (f text)
  | number n => number n

end SymbolValue

/-- A named constant. -/
structure Symbol where
  name : String
  value : SymbolValue
  kind : SymbolKind
  location : Option Location

end ConstLookup
