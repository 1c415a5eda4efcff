import ConstLookup.Path

/-!
  Which headers include which, and an order in which every header comes after all that it
  includes. The order is found from the other end: a header is taken when all that include it
  have been taken, and the headers taken are reversed.
-/

namespace ConstLookup.Include

/-- A header and the headers that it includes. -/
structure Node where
  path : String
  /-- Paths in order, each once. -/
  includes : List String := []
  deriving DecidableEq, Repr

/-- Headers in the order of their discovery, each path once. -/
abbrev Graph := List Node

namespace Graph

/-- Whether a header is in the graph. -/
def has (g : Graph) (path : String) : Bool := g.any (·.path = path)

/-- Add a header without includes at the end, unless it is there. -/
def add (g : Graph) (path : String) : Graph :=
  if g.has path then g else g ++ [{ path := path }]

/-- Put a path into an ordered list, unless it is there. -/
def insertPath (path : String) : List String → List String
  | [] => [path]
  | p :: ps =>
    if p = path then p :: ps
    else if Path.before path p then path :: p :: ps
    else p :: insertPath path ps

/-- Record that one header includes another. -/
def connect (g : Graph) (includer included : String) : Graph :=
  g.map fun n =>
    if n.path = includer then { n with includes := insertPath included n.includes } else n

/-! ## Processing order -/

/-- What is known while headers are taken. -/
structure Sorting where
  /-- For every header, how many headers that are not taken include it. -/
  waits : List (String × Nat)
  /-- Headers to take next. -/
  ready : List String
  /-- Headers taken, last one first. -/
  taken : List String

/-- The headers that a header of the graph includes and that are in the graph. -/
def targets (g : Graph) (path : String) : List String :=
  match g.find? (·.path = path) with
  | some n => n.includes.filter g.has
  | none => []

/-- How many headers of the graph include a header. -/
def includerCount (g : Graph) (path : String) : Nat :=
  (g.filter fun n => n.includes.contains path).length

/-- One header that included the path was taken. -/
def release (s : Sorting) (path : String) : Sorting :=
  let waits := s.waits.map fun w => if w.1 = path then (w.1, w.2 - 1) else w
  let free := (waits.find? (·.1 = path)).any (·.2 = 0)
  { s with waits := waits, ready := if free then s.ready ++ [path] else s.ready }

/-- Take headers until none is ready; every step takes one, so as many steps as there are
headers suffice. -/
def takeReady (g : Graph) : Nat → Sorting → Sorting
  | 0, s => s
  | steps + 1, s =>
    match s.ready with
    | [] => s
    | path :: ready =>
      let s := { s with ready := ready, taken := path :: s.taken }
      takeReady g steps ((g.targets path).foldl release s)

/-- Nothing is taken yet. -/
def sortingStart (g : Graph) : Sorting :=
  let waits := g.map fun n => (n.path, g.includerCount n.path)
  { waits := waits, ready := (waits.filter (·.2 = 0)).map (·.1), taken := [] }

/-- The headers, each after all that it includes; on a cycle, the headers that were never
ready. -/
def processingOrder (g : Graph) : Except (List String) (List String) :=
  let s := takeReady g g.length (sortingStart g)
  if s.taken.length < g.length then .error ((s.waits.filter (0 < ·.2)).map (·.1))
  else .ok s.taken

end Graph

end ConstLookup.Include
