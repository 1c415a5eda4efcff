import ConstLookup.Text.Blank
import ConstLookup.Text.Word

/-!
  Definitions given on the command line: `NAME`, which is defined as `1`, or `NAME=VALUE`.
-/

namespace ConstLookup

open ConstLookup.Text

/-- A definition given on the command line. -/
structure Define where
  name : String
  /-- The text that the definition gives for the name, if it gives one. -/
  body : Option String
  deriving DecidableEq, Repr

/-- Why an argument is not a definition. -/
inductive DefineError where
  /-- Nothing but blanks stands for the name. -/
  | emptyName (argument : String)
  /-- The name is not an identifier. -/
  | invalidName (name : String)
  deriving DecidableEq, Repr

/-- Wording of a definition error. -/
def DefineError.message : DefineError → String
  | emptyName argument => s!"Empty macro name in \x60-D{argument}\x60"
  | invalidName name => s!"Invalid macro name \x60{name}\x60"

namespace Define

/-- The parts before and after the first equals sign. -/
def splitEquals (cs : List Char) : List Char × Option (List Char) :=
  match cs.dropWhile (· ≠ '=') with
  | [] => (cs, none)
  | _ :: value => (cs.takeWhile (· ≠ '='), some value)

/-- Read an argument. Blanks around the name and around the value do not count. -/
def parse (argument : String) : Except DefineError Define :=
  let (before, value) := splitEquals argument.toList
  let name := trim before
  if name.isEmpty then .error (.emptyName argument)
  else if !isIdentifier name then .error (.invalidName (String.ofList name))
  else
    .ok {
      name := String.ofList name
      body := some (match value with
        | some v => String.ofList (trim v)
        | none => "1") }

/-- Read arguments up to the first that is not a definition. -/
def parseAll (arguments : List String) : Except DefineError (List Define) :=
  arguments.mapM parse

/-- The value of the name: one, if the definition gives no text. -/
def value (d : Define) : String := d.body.getD "1"

/-- The definition as a compiler argument. -/
def argument (d : Define) : String :=
  match d.body with
  | some body => s!"-D{d.name}={body}"
  | none => s!"-D{d.name}"

end Define

end ConstLookup
