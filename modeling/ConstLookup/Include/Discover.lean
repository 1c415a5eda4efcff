import ConstLookup.Include.Graph
import ConstLookup.Include.Options
import ConstLookup.Include.Search
import ConstLookup.RunError

/-!
  The headers that a header needs, in an order in which every header comes after all that it
  includes. They are found by following includes, or listed by the compiler.
-/

namespace ConstLookup.Include

/-- How headers are looked for. -/
structure Resolver where
  search : SearchPath := {}
  /-- Includes in angle brackets are followed as well. -/
  includeSystem : Bool := false
  maxHeaders : Nat := 20
  deriving DecidableEq, Repr

namespace Resolver

variable {m : Type → Type} [Monad m]

/-- The resolver for the given options. Every directory has to exist; with system headers, the
compiler is asked for its directories. -/
def ofOptions (host : Host m) (o : Options) : ExceptT RunError m Resolver := do
  let search := SearchPath.ofUserDirs o.includeDirs
  match ← ExceptT.lift (SearchPath.missing? host search.userDirs) with
  | some dir => throw (.directoryNotFound dir)
  | none =>
    let dirs ←
      if o.includeSystem then
        match ← ExceptT.lift (Compiler.defaultSearchDirs host o.compiler) with
        | .ok dirs => pure dirs
        | .error e => throw (.compiler e)
      else pure []
    return {
      search := dirs.foldl SearchPath.addSystem search
      includeSystem := o.includeSystem
      maxHeaders := o.maxHeaders }

/-- The includes of a header as written. -/
def includesOf (host : Host m) (path : String) : ExceptT RunError m (List (Kind × String)) := do
  match ← ExceptT.lift (host.readSource path) with
  | .ok source => return scan source
  | .error fault => throw (.io fault)

/-- The files that includes stand for; those that stand for none are left out. -/
def resolveAll (r : Resolver) (host : Host m) (includer : String) :
    List (Kind × String) → m (List String)
  | [] => return []
  | (kind, name) :: rest => do
    let target ← r.search.resolve? host kind name (some includer)
    return target.toList ++ (← resolveAll r host includer rest)

/-! ## Following includes -/

/-- Whether includes of a kind are followed. -/
def follows (r : Resolver) : Kind → Bool
  | .quoted => true
  | .angled => r.includeSystem

/-- Add the headers that a header includes, as long as the number of headers is allowed. -/
def extend (r : Resolver) (includer : String) (g : Graph) :
    List String → Except RunError Graph
  | [] => .ok g
  | target :: targets =>
    let larger := g.add target
    if !g.has target && r.maxHeaders < larger.length then
      .error (.tooManyHeaders larger.length r.maxHeaders)
    else extend r includer (larger.connect includer target) targets

/-- Visit headers from the one with the given number on. Every step visits one, and no more
headers than allowed are found. -/
def discoverFrom (r : Resolver) (host : Host m) :
    Nat → Nat → Graph → ExceptT RunError m Graph
  | 0, _, g => return g
  | steps + 1, i, g =>
    match g[i]? with
    | none => return g
    | some node => do
      let includes ← includesOf host node.path
      let followed := includes.filter fun d => r.follows d.1
      let targets ← ExceptT.lift (r.resolveAll host node.path followed)
      let g ← ExceptT.mk (pure (r.extend node.path g targets))
      discoverFrom r host steps (i + 1) g

/-- All headers that a header needs, itself first. -/
def discover (r : Resolver) (host : Host m) (root : String) : ExceptT RunError m Graph := do
  match ← host.canonical? root with
  | none => throw (.fileNotFound root)
  | some path => r.discoverFrom host (max 1 r.maxHeaders) 0 [{ path := path }]

/-- The headers that a header needs in processing order. -/
def order (r : Resolver) (host : Host m) (root : String) : ExceptT RunError m (List String) := do
  let g ← r.discover host root
  match g.processingOrder with
  | .ok paths => return paths
  | .error paths => throw (.includeCycle paths)

/-! ## Headers listed by the compiler -/

/-- Connect every header of a list with those that it includes. -/
def connectAll (r : Resolver) (host : Host m) (g : Graph) :
    List String → ExceptT RunError m Graph
  | [] => return g
  | path :: paths => do
    let includes ← includesOf host path
    let targets ← ExceptT.lift (r.resolveAll host path includes)
    connectAll r host ((targets.filter g.has).foldl (·.connect path) g) paths

/-- Listed headers in processing order, or in reverse when they include each other in a cycle. -/
def orderListed (r : Resolver) (host : Host m) (listed : List String) :
    ExceptT RunError m (List String) := do
  let bare : Graph := listed.foldl Graph.add []
  let g ← r.connectAll host bare (bare.map (·.path))
  match g.processingOrder with
  | .ok paths => return paths
  | .error _ => return (g.map (·.path)).reverse

/-- The headers that the compiler lists for a header, in processing order. Of too many, the last
ones are kept. -/
def orderByCompiler (r : Resolver) (host : Host m) (compiler root : String)
    (defines : List Define) : ExceptT RunError m (List String) := do
  if ← host.isFile root then
    let list := Compiler.dependencyList host compiler root r.includeSystem r.search.userDirs defines
    match ← ExceptT.lift list with
    | .error e => throw (.compiler e)
    | .ok listed =>
      let paths ← r.orderListed host listed
      return paths.drop (paths.length - r.maxHeaders)
  else throw (.fileNotFound root)

end Resolver

end ConstLookup.Include
