import ConstLookup.Cli.Run

/-!
  The command: a run on the files of the system. No other program can be started from here, so
  every compiler counts as not found.
-/

namespace ConstLookup

/-- The fault behind an error of the system. -/
def IoFault.ofError : IO.Error → IoFault
  | .noFileOrDirectory _ _ _ => .notFound
  | .permissionDenied _ _ _ => .permissionDenied
  | e => .other (toString e)

/-- An action with its error as a value. -/
def catchFault {α : Type} (action : IO α) : IO (Except IoFault α) := do
  try
    return .ok (← action)
  catch e => return .error (IoFault.ofError e)

/-- The answer of an action, or another one if it fails. -/
def orElse {α : Type} (fallback : α) (action : IO α) : IO α := do
  return ((← catchFault action).toOption).getD fallback

/-- The files of the system. -/
def systemHost : Host IO where
  currentDirectory := do return (← IO.currentDir).toString
  canonical? path := orElse none do return some (← IO.FS.realPath path).toString
  exists? path := orElse false do (← IO.FS.realPath path).pathExists
  isFile path := orElse false do
    let place ← IO.FS.realPath path
    return (← place.pathExists) && !(← place.isDir)
  isDirectory path := orElse false do (← IO.FS.realPath path).isDir
  read path := catchFault do return (← IO.FS.readBinFile path).toList
  write path bytes := catchFault (IO.FS.writeBinFile path bytes.toByteArray)
  runProgram _ _ := return .error .notFound

end ConstLookup

/-- Run the command line. -/
def main (arguments : List String) : IO UInt32 := do
  let outcome ← ConstLookup.Cli.run ConstLookup.systemHost arguments
  IO.print outcome.stdout
  IO.eprint outcome.stderr
  return UInt32.ofNat outcome.code
