import ConstLookup.Text.Lines

/-!
  Reading what a C compiler prints: the list of directories it searches, and the make rule that
  lists the headers a file needs.
-/

namespace ConstLookup.Compiler

open ConstLookup.Text

/-- What stands in the line before a list of directories. -/
def searchStart : String := "search starts here:"

/-- The line after the last list of directories. -/
def searchEnd : String := "End of search list."

/-- What stands after a directory that holds frameworks. -/
def frameworkNote : String := " (framework directory)"

/-- A text that the output of the compiler lacks. -/
structure MissingMarker where
  marker : String
  deriving DecidableEq, Repr

/-- Wording of a missing marker. -/
def MissingMarker.message (m : MissingMarker) : String :=
  s!"Unexpected compiler output: missing \x60{m.marker}\x60"

/-- Drop `part` from the end as often as it stands there, in reversed text. -/
def dropRepeated (part : List Char) (fuel : Nat) (reversed : List Char) : List Char :=
  match fuel, after? part reversed with
  | fuel + 1, some rest => dropRepeated part fuel rest
  | _, _ => reversed

/-- A directory as listed, without blanks around it and notes after it. -/
def directoryOf (line : List Char) : List Char :=
  let text := trim line
  (dropRepeated frameworkNote.toList.reverse text.length text.reverse).reverse

/-- The directories listed before the end of the lists; `none` if the lists do not end. -/
def directoriesFrom : List (List Char) → Option (List String)
  | [] => none
  | line :: rest =>
    if trim line = searchEnd.toList then some []
    else
      let dir := directoryOf line
      let more := directoriesFrom rest
      if containsText searchStart.toList line || dir.isEmpty then more
      else more.map (String.ofList dir :: ·)

/-- The directories that the compiler searches, in its order. -/
def searchDirs (output : String) : Except MissingMarker (List String) :=
  match ((lines output.toList).map chomp).dropWhile (!containsText searchStart.toList ·) with
  | [] => .error ⟨searchStart⟩
  | _ :: rest =>
    match directoriesFrom rest with
    | some dirs => .ok dirs
    | none => .error ⟨searchEnd⟩

/-- Put a blank in place of every backslash followed by a line end. -/
def joinRule : List Char → List Char
  | [] => []
  | '\\' :: '\r' :: '\n' :: cs => ' ' :: joinRule cs
  | '\\' :: '\n' :: cs => ' ' :: joinRule cs
  | c :: cs => c :: joinRule cs

/-- The files that a make rule lists after its colon. -/
def ruleFiles (output : String) : Except MissingMarker (List String) :=
  match (joinRule output.toList).dropWhile (· ≠ ':') with
  | [] => .error ⟨":"⟩
  | _ :: files => .ok ((words files).map String.ofList)

end ConstLookup.Compiler
