import ConstLookup.Table.Assemble
import ConstLookup.Text.Json

/-!
  The listing of what would be generated: headers, tables and skipped constants, for readers or
  as JSON.
-/

namespace ConstLookup.Cli

open ConstLookup.Text (Json)

/-- What a listing shows. -/
structure Listing where
  /-- The headers in processing order. -/
  headers : List String
  result : Transposition

namespace Listing

/-- The name of a table's origin. -/
def originName : TableOrigin → String
  | .enumeration => "Enum"
  | .stem => "Prefix"
  | .remainder => "Default"

/-- The tables, each with its header. -/
def tables (l : Listing) : List (String × LookupTable) :=
  l.result.headers.flatMap fun h => h.tables.map fun t => (h.path, t)

/-- Text filled up with spaces after it. -/
def padEnd (width : Nat) (text : String) : String :=
  text ++ String.ofList (List.replicate (width - text.length) ' ')

/-- Text filled up with spaces before it. -/
def padStart (width : Nat) (text : String) : String :=
  String.ofList (List.replicate (width - text.length) ' ') ++ text

/-! ## For readers -/

/-- The line of a table. -/
def tableLine (t : LookupTable) : String :=
  let type := (t.intType.map IntType.spelling).getD "-"
  let mask := if t.isMask then "  mask" else ""
  let count := padStart 4 (toString t.entries.length)
  s!"  {padEnd 24 t.name} {count} entries  {padEnd 10 type} {originName t.origin}{mask}"

/-- The line of a skipped constant. -/
def skippedLine (s : Fold.Skipped) : String :=
  let place := (s.symbol.location.map fun l => l.text ++ " ").getD ""
  s!"  {place}{s.symbol.name} = \x60{s.symbol.text}\x60: {s.reason.message}"

/-- Lines under a heading that counts them. -/
def counted (heading : String) (lines : List String) : List String :=
  s!"{heading} ({lines.length}):" :: lines

/-- The listing for readers. -/
def text (l : Listing) : String :=
  let skipped := l.result.report.skipped.map skippedLine
  let lines := counted "Headers" (l.headers.map ("  " ++ ·)) ++
    "" :: counted "Tables" (l.tables.map fun t => tableLine t.2) ++
    (if skipped.isEmpty then [] else "" :: counted "Skipped" skipped)
  String.join (lines.map (· ++ "\n"))

/-! ## As JSON -/

/-- A value that may be missing. -/
def jsonOption {α : Type} (f : α → Json) : Option α → Json
  | some a => f a
  | none => .null

/-- A place in a source. -/
def jsonLocation (l : Location) : Json :=
  .object [("file", .string l.file), ("line", .number l.line), ("column", .number l.column)]

/-- A table and its header. -/
def jsonTable (header : String) (t : LookupTable) : Json :=
  .object [("header", .string header), ("name", .string t.name),
    ("origin", .string (originName t.origin)), ("entries", .number t.entries.length),
    ("int_type", jsonOption (fun i => .string i.spelling) t.intType), ("is_mask", .bool t.isMask)]

/-- The reason why a constant is skipped. -/
def jsonReason : Fold.SkipReason → Json
  | .malformed cause => .object [("Malformed", .string cause.message)]
  | .noValue => .string "NoValue"
  | .unresolved missing =>
    .object [("Unresolved", .string (EvalError.unknownSymbol missing).message)]

/-- A skipped constant. -/
def jsonSkipped (s : Fold.Skipped) : Json :=
  .object [("name", .string s.symbol.name), ("text", .string s.symbol.text),
    ("reason", jsonReason s.reason), ("location", jsonOption jsonLocation s.symbol.location)]

/-- The listing as JSON. -/
def json (l : Listing) : Json :=
  .object [("headers", .array (l.headers.map .string)),
    ("tables", .array (l.tables.map fun t => jsonTable t.1 t.2)),
    ("skipped", .array (l.result.report.skipped.map jsonSkipped))]

end Listing

end ConstLookup.Cli
