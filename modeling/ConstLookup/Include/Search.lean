import ConstLookup.File.Host
import ConstLookup.Include.Scan
import ConstLookup.Path

/-!
  Finding the file that an include names. A quoted name is looked up beside the including file
  first; then every name is looked up in the directories of the user and in those of the
  compiler, in their order.
-/

namespace ConstLookup.Include

/-- The directories to search. -/
structure SearchPath where
  /-- The directories of the user. -/
  userDirs : List String := []
  /-- The directories of the compiler. -/
  systemDirs : List String := []
  deriving DecidableEq, Repr

namespace SearchPath

/-- Add a directory at the end, unless it is listed in some spelling. -/
def addTo (dirs : List String) (dir : String) : List String :=
  if dirs.any (Path.same dir) then dirs else dirs ++ [dir]

/-- Add a directory of the user. -/
def addUser (s : SearchPath) (dir : String) : SearchPath :=
  { s with userDirs := addTo s.userDirs dir }

/-- Add a directory of the compiler. -/
def addSystem (s : SearchPath) (dir : String) : SearchPath :=
  { s with systemDirs := addTo s.systemDirs dir }

/-- The directories of the user alone. -/
def ofUserDirs (dirs : List String) : SearchPath := dirs.foldl addUser {}

/-- The directory beside which a quoted name is looked up. -/
def beside (kind : Kind) (includer : Option String) : List String :=
  match kind with
  | .quoted => (includer.bind Path.parent?).toList
  | .angled => []

/-- The paths that a name may stand for, the first one first. -/
def candidates (s : SearchPath) (kind : Kind) (name : String) (includer : Option String) :
    List String :=
  (beside kind includer ++ s.userDirs ++ s.systemDirs).map fun dir => Path.join dir name

variable {m : Type → Type} [Monad m]

/-- The first path that names a file. -/
def firstFile? (host : Host m) : List String → m (Option String)
  | [] => return none
  | path :: paths => do
    if ← host.isFile path then return some path else firstFile? host paths

/-- The file that a name stands for, without links. -/
def resolve? (s : SearchPath) (host : Host m) (kind : Kind) (name : String)
    (includer : Option String) : m (Option String) := do
  match ← firstFile? host (s.candidates kind name includer) with
  | some path => host.canonical? path
  | none => return none

/-- The first directory of the user that does not exist. -/
def missing? (host : Host m) : List String → m (Option String)
  | [] => return none
  | dir :: dirs => do
    if ← host.isDirectory dir then missing? host dirs else return some dir

end SearchPath

end ConstLookup.Include
