import ConstLookup.Compiler.Run

/-!
  What ends a run without a result.
-/

namespace ConstLookup

/-- Why a run ends without a result. -/
inductive RunError where
  | io (fault : IoFault)
  | fileNotFound (path : String)
  | directoryNotFound (path : String)
  /-- More headers are needed than are allowed. -/
  | tooManyHeaders (found allowed : Nat)
  | includeCycle (paths : List String)
  | compiler (cause : CompilerError)
  | outputExists (path : String)
  /-- The configuration is invalid. -/
  | invalidConfig
  deriving DecidableEq, Repr

namespace RunError

/-- Wording of an error. -/
def message : RunError → String
  | io fault => s!"IO error: {fault.message}"
  | fileNotFound path => s!"File not found: {path}"
  | directoryNotFound path => s!"Directory not found: {path}"
  | tooManyHeaders found allowed =>
    s!"Required headers ({found}) exceed the maximum allowed ({allowed})"
  | includeCycle paths => "Include cycle between: " ++ ", ".intercalate paths
  | compiler cause => s!"Compiler error: {cause.message}"
  | outputExists path => s!"Output file already exists: {path} (use --force to overwrite)"
  | invalidConfig => "Configuration error: invalid configuration"

/-- The wording of the fault behind an error, if there is one. -/
def cause? : RunError → Option String
  | io fault => some fault.message
  | _ => none

end RunError

end ConstLookup
