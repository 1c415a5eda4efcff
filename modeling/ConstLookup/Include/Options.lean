/-!
  How the headers that a header includes are found.
-/

namespace ConstLookup.Include

/-- How included headers are found. -/
structure Options where
  /-- Included headers are processed too. -/
  enabled : Bool := false
  /-- Includes in angle brackets are followed as well. -/
  includeSystem : Bool := false
  /-- The compiler that is asked for its directories. -/
  compiler : String := "gcc"
  /-- Directories to search. -/
  includeDirs : List String := []
  /-- The most headers to process. -/
  maxHeaders : Nat := 20
  /-- The compiler lists the headers. -/
  useCompilerDeps : Bool := false
  deriving DecidableEq, Repr

end ConstLookup.Include
