import ConstLookup.Expr.Evaluate
import ConstLookup.Symbol.Table

/-!
  Constant folding: turning the expressions of a symbol table into numbers. Expressions may refer
  to each other in any order. A pass visits the symbols without a number in table order and uses
  every number known so far; passes repeat until one resolves nothing. A symbol that fails for
  any reason but an unknown name is not tried again.
-/

namespace ConstLookup.Fold

/-- A symbol that has no number yet, with its expression as written. -/
structure Pending where
  name : String
  text : String
  location : Option Location
  deriving DecidableEq, Repr

/-- Why a symbol got no number. -/
inductive SkipReason where
  /-- The expression is not a constant expression. -/
  | malformed (cause : EvalError)
  /-- The expression has no value. -/
  | noValue
  /-- The expression needs a name that never got a number. -/
  | unresolved (missing : String)

/-- The error behind a skipped symbol, in words. -/
def SkipReason.detail? : SkipReason → Option String
  | malformed cause => some cause.message
  | noValue => none
  | unresolved missing => some (EvalError.unknownSymbol missing).message

/-- Wording of a reason. -/
def SkipReason.message : SkipReason → String
  | malformed cause => s!"malformed expression: {cause.message}"
  | noValue => "no value"
  | unresolved missing => s!"unresolved: {(EvalError.unknownSymbol missing).message}"

/-- A symbol that got no number. -/
structure Skipped where
  symbol : Pending
  reason : SkipReason

/-- What a folding run did. -/
structure Report where
  /-- Passes made; the last one resolved nothing unless the bound stopped the run. -/
  passes : Nat
  /-- Symbols that got a number. -/
  resolved : Nat
  /-- Symbols that got none: the failures pass by pass, then those that were never resolved. -/
  skipped : List Skipped

/-- What one pass did. -/
structure Pass where
  table : SymbolTable
  resolved : Nat
  failed : List Skipped
  /-- Symbols to be tried again, each with the unknown name that stopped it. -/
  waiting : List (Pending × String)

/-- Try every symbol of the list once, in order; each sees the numbers found before it. -/
def pass (table : SymbolTable) : List Pending → Pass
  | [] => { table := table, resolved := 0, failed := [], waiting := [] }
  | p :: rest =>
    match evaluate table.number? p.text with
    | .ok (some v) =>
      let r := pass (table.setValue p.name (.number v)) rest
      { r with resolved := r.resolved + 1 }
    | .ok none =>
      let r := pass table rest
      { r with failed := ⟨p, .noValue⟩ :: r.failed }
    | .error (.unknownSymbol missing) =>
      let r := pass table rest
      { r with waiting := (p, missing) :: r.waiting }
    | .error cause =>
      let r := pass table rest
      { r with failed := ⟨p, .malformed cause⟩ :: r.failed }

/-- Symbols are tried again in their order. -/
theorem pass_waiting (t : SymbolTable) (work : List Pending) :
    ((pass t work).waiting.map (·.1)).Sublist work := by
  fun_induction pass t work with
  | case1 => exact .slnil
  | case2 t p rest v e r ih => exact ih.cons p
  | case3 t p rest e r ih => exact ih.cons p
  | case4 t p rest x e r ih => exact ih.cons_cons p
  | case5 t p rest cause hk e r ih => exact ih.cons p

/-- One pass, and up to `more` further ones as long as the last one resolved something. -/
def passes : Nat → SymbolTable → List Pending → SymbolTable × Report
  | more, table, work =>
    let r := pass table work
    let stop : SymbolTable × Report :=
      (r.table, {
        passes := 1
        resolved := r.resolved
        skipped := r.failed ++ r.waiting.map fun (p, missing) => ⟨p, .unresolved missing⟩ })
    match more with
    | 0 => stop
    | more + 1 =>
      if r.resolved = 0 then stop
      else
        let (table, report) := passes more r.table (r.waiting.map (·.1))
        (table, {
          passes := report.passes + 1
          resolved := r.resolved + report.resolved
          skipped := r.failed ++ report.skipped })

/-- The symbols of a table that have no number. -/
def pending (t : SymbolTable) : List Pending :=
  t.toList.filterMap fun s =>
    match s.value with
    | .expr text => some { name := s.name, text := text, location := s.location }
    | .number _ => none

/-- How many passes may be made: every pass but the last resolves a symbol, so one more than
there are symbols suffices; one pass is always made. -/
def passBound (maxPasses : Nat) (t : SymbolTable) : Nat := max 1 (min maxPasses (t.size + 1))

/-- Fold a table. Expressions that stay are left with their hexadecimal literals marked. -/
def fold (maxPasses : Nat) (t : SymbolTable) : SymbolTable × Report :=
  passes (passBound maxPasses t - 1) (t.mapValues (·.mapExpr HexShield.shield)) (pending t)

end ConstLookup.Fold
