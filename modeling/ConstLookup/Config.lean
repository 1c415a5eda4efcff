import ConstLookup.Emit.Header
import ConstLookup.Include.Options
import ConstLookup.Table.Assemble
import ConstLookup.Yaml.Node

/-!
  Configuration files. A configuration is a YAML mapping of sections, each a mapping of settings.
  Whatever is left out keeps its default, names that mean nothing here are skipped, and a setting
  with the wrong kind of value or given twice makes the whole file invalid.
-/

namespace ConstLookup

/-- All settings. -/
structure Config where
  transpose : TableOptions := {}
  emit : Emit.Options := {}
  recursion : Include.Options := {}
  /-- Definitions as given on a command line. -/
  defines : List String := []

namespace Config

open Yaml

/-! ## Values -/

/-- A value was left out. -/
def isAbsent : Node → Bool
  | .scalar text plain _ => plain && text = ""
  | _ => false

/-- A switch. -/
def flag? : Node → Option Bool
  | .scalar text true _ =>
    if ["true", "True", "TRUE"].contains text then some true
    else if ["false", "False", "FALSE"].contains text then some false
    else none
  | _ => none

/-- A text, however it is written. -/
def text? : Node → Option String
  | .scalar text _ _ => some text
  | _ => none

/-- A list of texts; one left out is empty. -/
def texts? : Node → Option (List String)
  | .sequence items => items.mapM text?
  | node => if isAbsent node then some [] else none

/-- Numbers are smaller than this. -/
def numberBound : Nat := UInt64.size

/-- A number after its radix mark, if it has that mark. -/
def markedNumber? (mark : String) (radix : Nat) (cs : List Char) : Option Nat :=
  if mark.toList.isPrefixOf cs then
    (Text.digits? radix (cs.drop mark.length)).filter (· < numberBound)
  else none

/-- A decimal number; one digit apart, it does not begin with zero when it is all digits. -/
def decimal? (signed cs : List Char) : Option Nat :=
  let unsigned := match signed with
    | '+' :: rest => rest
    | '-' :: rest => rest
    | rest => rest
  if 1 < unsigned.length && unsigned.head? = some '0' && unsigned.all Text.isDigit then none
  else (Text.digits? 10 cs).filter (· < numberBound)

/-- A number: decimal, or hexadecimal, octal or binary after a mark; a plus sign may stand
before it. -/
def number? : Node → Option Nat
  | .scalar text true _ =>
    let signed := text.toList
    let cs := match signed with
      | '+' :: rest => rest
      | rest => rest
    (markedNumber? "0x" 16 cs).or <| (markedNumber? "0o" 8 cs).or <|
      (markedNumber? "0b" 2 cs).or (decimal? signed cs)
  | _ => none

/-- A form of output by its name. -/
def modeNamed? : String → Option Emit.Mode
  | "macro" => some .copying
  | "inline" => some .inline
  | _ => none

/-- A form of output: its name, or its name as the tag of nothing. -/
def mode? : Node → Option Emit.Mode
  | .scalar text _ none => modeNamed? text
  | .scalar text true (some tag) =>
    if ["", "~", "null", "Null", "NULL"].contains text then
      modeNamed? (String.ofList (match tag.toList with
        | '!' :: name => name
        | name => name))
    else none
  | _ => none

/-! ## Sections -/

/-- The settings of a section, of those that are known; one left out is empty. Every name must
be a text, and no known one may come twice. -/
def settings? (known : List String) (node : Node) : Option (List (String × Node)) := do
  let pairs ← match node with
    | .mapping pairs => some pairs
    | other => if isAbsent other then some [] else none
  let named ← pairs.mapM fun (key, held) => (text? key).map fun name => (name, held)
  let settings := named.filter fun s => known.contains s.1
  if (settings.map (·.1)).Nodup then some settings else none

/-- The value of a setting, or its default. -/
def setting {α : Type} (read? : Node → Option α) (settings : List (String × Node))
    (name : String) (fallback : α) : Option α :=
  match settings.find? (·.1 = name) with
  | some (_, held) => read? held
  | none => some fallback

/-- Texts in order, each once. -/
def ordered (texts : List String) : List String :=
  texts.eraseDups.mergeSort fun a b => !decide (b < a)

/-- How tables are made. -/
def transpose? (node : Node) : Option TableOptions := do
  let s ← settings? ["verbose", "masks", "max_passes"] node
  let d : TableOptions := {}
  some
    { verbose := ← setting flag? s "verbose" d.verbose
      masks := ordered (← setting texts? s "masks" d.masks)
      maxPasses := ← setting number? s "max_passes" d.maxPasses }

/-- How output is written. -/
def emit? (node : Node) : Option Emit.Options := do
  let s ← settings? ["mode", "basename"] node
  let d : Emit.Options := {}
  some
    { mode := ← setting mode? s "mode" d.mode
      basename := ← setting flag? s "basename" d.basename }

/-- How included headers are found. -/
def recursion? (node : Node) : Option Include.Options := do
  let s ← settings? ["enabled", "include_system", "compiler", "include_dirs", "max_headers",
    "use_compiler_deps"] node
  let d : Include.Options := {}
  some
    { enabled := ← setting flag? s "enabled" d.enabled
      includeSystem := ← setting flag? s "include_system" d.includeSystem
      compiler := ← setting text? s "compiler" d.compiler
      includeDirs := ← setting texts? s "include_dirs" d.includeDirs
      maxHeaders := ← setting number? s "max_headers" d.maxHeaders
      useCompilerDeps := ← setting flag? s "use_compiler_deps" d.useCompilerDeps }

/-- The configuration that a value holds. -/
def ofNode? (node : Node) : Option Config := do
  let s ← settings? ["transpose", "emit", "recursion", "defines"] node
  some
    { transpose := ← setting transpose? s "transpose" {}
      emit := ← setting emit? s "emit" {}
      recursion := ← setting recursion? s "recursion" {}
      defines := ← setting texts? s "defines" [] }

/-- The configuration that a text holds; an empty text holds the defaults. -/
def read? (text : String) : Option Config := do
  match ← Yaml.read? text with
  | some node => ofNode? node
  | none => some {}

end Config

end ConstLookup
