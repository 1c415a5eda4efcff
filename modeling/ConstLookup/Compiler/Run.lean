import ConstLookup.Compiler.Output
import ConstLookup.Define
import ConstLookup.File.Host

/-!
  Asking a C compiler: for the directories that it searches, and for the headers that a file
  needs.
-/

namespace ConstLookup

/-- Why a compiler gives no answer. -/
inductive CompilerError where
  | notFound (compiler : String)
  /-- The compiler is there but cannot be run. -/
  | cannotRun (compiler : String) (fault : IoFault)
  | failed (compiler : String) (code : Nat) (stderr : String)
  | missingMarker (m : Compiler.MissingMarker)
  deriving DecidableEq, Repr

/-- Wording of a compiler error. -/
def CompilerError.message : CompilerError → String
  | notFound compiler => s!"Compiler \x60{compiler}\x60 not found"
  | cannotRun compiler fault => s!"Failed to run \x60{compiler}\x60: {fault.message}"
  | failed compiler code stderr =>
    s!"\x60{compiler}\x60 exited with exit status: {code}: {stderr}"
  | missingMarker m => m.message

namespace Compiler

variable {m : Type → Type} [Monad m]

/-- Run a compiler that has to succeed. -/
def run (host : Host m) (compiler : String) (arguments : List String) :
    m (Except CompilerError Completed) := do
  match ← host.runProgram compiler arguments with
  | .error .notFound => return .error (.notFound compiler)
  | .error fault => return .error (.cannotRun compiler fault)
  | .ok done =>
    if done.code = 0 then return .ok done
    else
      let text := Text.trim (Text.Utf8.lossy done.stderr).toList
      return .error (.failed compiler done.code (String.ofList text))

/-- The compiler can be run. -/
def isAvailable (host : Host m) (compiler : String) : m Bool := do
  match ← host.runProgram compiler ["--version"] with
  | .ok done => return done.code = 0
  | .error _ => return false

/-- The directories that a compiler searches, in its order. -/
def defaultSearchDirs (host : Host m) (compiler : String) :
    m (Except CompilerError (List String)) := do
  match ← run host compiler ["-xc", "-E", "-v", "-"] with
  | .error e => return .error e
  | .ok done => return (searchDirs (Text.Utf8.lossy done.stderr)).mapError .missingMarker

/-- The arguments that ask for the headers a file needs. -/
def dependencyArguments (root : String) (includeSystem : Bool) (includeDirs : List String)
    (defines : List Define) : List String :=
  (if includeSystem then "-M" else "-MM") :: root ::
    (includeDirs.map ("-I" ++ ·) ++ defines.map Define.argument)

/-- Paths without links; one that does not exist stays as it is. -/
def canonicalAll (host : Host m) : List String → m (List String)
  | [] => return []
  | path :: paths => do
    let canonical ← host.canonical? path
    return canonical.getD path :: (← canonicalAll host paths)

/-- The files that a file needs, itself first, as a compiler lists them. -/
def dependencyList (host : Host m) (compiler root : String) (includeSystem : Bool)
    (includeDirs : List String) (defines : List Define) :
    m (Except CompilerError (List String)) := do
  match ← run host compiler (dependencyArguments root includeSystem includeDirs defines) with
  | .error e => return .error e
  | .ok done =>
    match ruleFiles (Text.Utf8.lossy done.stdout) with
    | .error marker => return .error (.missingMarker marker)
    | .ok files => return .ok (← canonicalAll host files)

end Compiler

end ConstLookup
