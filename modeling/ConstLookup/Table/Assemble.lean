import ConstLookup.Define
import ConstLookup.Source.Declarations
import ConstLookup.Symbol.Fold
import ConstLookup.Table.DefaultSplit
import ConstLookup.Table.IntWidth
import ConstLookup.Table.StemGroup

/-!
  From declarations to lookup tables. The constants of all headers and of the command line are
  folded together; then every header gets its tables: one for each enum, one for each group of
  macros with a shared stem, and default tables for the other macros. Table names are distinct
  over all headers without regard to case.
-/

namespace ConstLookup

/-- How tables are made. -/
structure TableOptions where
  /-- Report skipped constants as warnings. -/
  verbose : Bool := false
  /-- Names of the tables that also get a flag writer; `all` names every table. -/
  masks : List String := []
  /-- Bound on the passes of constant folding. -/
  maxPasses : Nat := 1024
  deriving DecidableEq, Repr

/-- The table called `name` was asked for as a mask. -/
def TableOptions.wantsMask (o : TableOptions) (name : String) : Bool :=
  o.masks.any fun m => Text.sameAsciiCase m "all" || Text.sameAsciiCase m name

/-- The declarations of one header. -/
structure HeaderSource where
  path : String
  declarations : Declarations

/-- The result for a list of headers. -/
structure Transposition where
  headers : List HeaderTables
  report : Fold.Report

/-- Number of tables over all headers. -/
def Transposition.tableCount (t : Transposition) : Nat :=
  (t.headers.flatMap (·.tables)).length

namespace Assemble

/-- The symbol of a definition given on the command line. -/
def defineSymbol (d : Define) : Symbol :=
  { name := d.name, value := .expr d.value, kind := .commandLine, location := none }

/-- The symbol of a macro. -/
def macroSymbol (m : MacroDecl) : Symbol :=
  { name := m.name, value := .expr m.body, kind := .definition, location := some m.location }

/-- The symbol of an enum member. -/
def memberSymbol (m : MemberDecl) : Symbol :=
  { name := m.name, value := .expr m.value, kind := .enumerator, location := some m.location }

/-- The macros that have a body. -/
def valuedMacros (d : Declarations) : List MacroDecl := d.macros.filter (!·.body.isEmpty)

/-- The symbols of a source: its macros that have a body, then its enum members. -/
def symbolsOf (d : Declarations) : List Symbol :=
  (valuedMacros d).map macroSymbol ++ d.enums.flatMap fun e => e.members.map memberSymbol

/-- The table of all symbols. -/
def symbolTable (defines : List Define) (headers : List HeaderSource) : SymbolTable :=
  (defines.map defineSymbol ++ headers.flatMap fun h => symbolsOf h.declarations).foldl
    SymbolTable.insert SymbolTable.empty

/-- The constant of a name that folded to an integer. -/
def constant? (symbols : SymbolTable) (name : String) : Option NamedValue :=
  ((symbols.value? name).bind SymbolValue.int?).map fun v => { name := name, value := v }

/-- The first macro of each name. -/
def firstByName : List MacroDecl → List MacroDecl
  | [] => []
  | m :: ms => m :: (firstByName ms).filter (·.name ≠ m.name)

/-- The integer constants among the macros of a source, each name once. -/
def macroConstants (symbols : SymbolTable) (d : Declarations) : List NamedValue :=
  (firstByName (valuedMacros d)).filterMap fun m => constant? symbols m.name

/-- The integer constants of an enum. -/
def enumConstants (symbols : SymbolTable) (e : EnumDecl) : List NamedValue :=
  e.members.filterMap fun m => constant? symbols m.name

/-- What a table is to be made of. -/
structure Plan where
  name : String
  origin : TableOrigin
  members : List NamedValue

/-- The tables to be made for a source. -/
def plans (symbols : SymbolTable) (d : Declarations) : List Plan :=
  let (groups, residual) := groupByStem (macroConstants symbols d)
  let subsets := splitDefault residual
  (d.enums.map fun e => ⟨e.name, .enumeration, enumConstants symbols e⟩) ++
    (mergeGroups groups).map (fun g => ⟨g.1, .stem, g.2⟩) ++
    subsets.mapIdx fun i s => ⟨defaultTableName i subsets.length, .remainder, s⟩

/-- The table of a plan under the given name. -/
def tableNamed (o : TableOptions) (name : String) (p : Plan) : LookupTable :=
  let entries := mergeCollisions p.members
  { name := name
    origin := p.origin
    entries := entries
    intType := inferType (entries.map (·.representative.value))
    isMask := o.wantsMask name }

/-- Tables for plans in turn, and the used names after them. A plan without members gives no
table. -/
def tablesFrom (o : TableOptions) (used : List String) : List Plan → List LookupTable × List String
  | [] => ([], used)
  | p :: ps =>
    if p.members.isEmpty then tablesFrom o used ps
    else
      let name := uniqueName used (Text.upper p.name)
      let (tables, used) := tablesFrom o (markUsed used name) ps
      (tableNamed o name p :: tables, used)

/-- The tables of headers in turn. -/
def headersFrom (o : TableOptions) (symbols : SymbolTable) (used : List String) :
    List HeaderSource → List HeaderTables
  | [] => []
  | h :: hs =>
    let (tables, used) := tablesFrom o used (plans symbols h.declarations)
    { path := h.path, tables := tables } :: headersFrom o symbols used hs

end Assemble

/-- The lookup tables of headers, with a report on the folding of their constants. -/
def transpose (o : TableOptions) (defines : List Define) (headers : List HeaderSource) :
    Transposition :=
  let (symbols, report) := Fold.fold o.maxPasses (Assemble.symbolTable defines headers)
  { headers := Assemble.headersFrom o symbols [] headers, report := report }

end ConstLookup
