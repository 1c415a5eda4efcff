import ConstLookup.File.Host
import ConstLookup.Path

/-!
  A tree of files in memory, as a system to run on. Every place of the tree is the list of names
  that leads to it from the root. A path is walked name by name; a link stands for the path that
  it holds, seen from the directory of the link.
-/

namespace ConstLookup

/-- What stands at a place. -/
inductive FileEntry where
  | directory
  | file (bytes : List UInt8)
  | link (target : String)
  deriving DecidableEq, Repr

/-- A tree of files. -/
structure FileTree where
  /-- Places with what stands there, last one added first. The root is always a directory. -/
  entries : List (List String × FileEntry) := []
  /-- The directory that relative paths are seen from. -/
  current : List String := []

namespace FileTree

/-- What stands at a place. -/
def entry? (t : FileTree) (place : List String) : Option FileEntry :=
  if place.isEmpty then some .directory
  else (t.entries.find? (·.1 = place)).map (·.2)

/-- Put something at a place. -/
def put (t : FileTree) (place : List String) (e : FileEntry) : FileTree :=
  { t with entries := (place, e) :: t.entries.filter (·.1 ≠ place) }

/-- The most links on the way to a place. -/
def maxLinks : Nat := 40

/-- The names of a path, where an empty name and `.` stand for the directory itself. -/
def names (path : String) : List String := Path.segments path

/-- Where a path starts. -/
def start (path : String) (place : List String) : List String :=
  if Path.isAbsolute path then [] else place

/-- Walk from a directory. With `create`, the last name may be missing. -/
def walk (t : FileTree) (create : Bool) (links : Nat) (place : List String) :
    List String → Except IoFault (List String)
  | [] => .ok place
  | name :: rest =>
    if name = "" || name = "." then walk t create links place rest
    else if name = ".." then walk t create links place.dropLast rest
    else
      let here := place ++ [name]
      match t.entry? here with
      | none =>
        if !create then .error .notFound
        else if rest.isEmpty then .ok here
        else .error (if rest.all (· = "") then .isDirectory else .notFound)
      | some .directory => walk t create links here rest
      | some (.file _) => if rest.isEmpty then .ok here else .error .notDirectory
      | some (.link target) =>
        match links with
        | links + 1 => walk t create links (start target place) (names target ++ rest)
        | 0 => .error .tooManyLinks
termination_by rest => (links, rest.length)

/-- The place that a path names. -/
def find (t : FileTree) (create : Bool) (path : String) : Except IoFault (List String) :=
  if path.isEmpty then .error .notFound
  else walk t create maxLinks (start path t.current) (names path)

/-- The spelling of a place. -/
def pathOf (place : List String) : String := "/" ++ "/".intercalate place

/-- The absolute path without links of an existing file or directory. -/
def canonical? (t : FileTree) (path : String) : Option String :=
  (t.find false path).toOption.map pathOf

/-- What an existing path names. -/
def lookup? (t : FileTree) (path : String) : Option FileEntry :=
  (t.find false path).toOption.bind t.entry?

/-- The path names a file. -/
def isFile (t : FileTree) (path : String) : Bool :=
  match t.lookup? path with
  | some (.file _) => true
  | _ => false

/-- The path names a directory. -/
def isDirectory (t : FileTree) (path : String) : Bool := t.lookup? path = some .directory

/-- The bytes of a file. -/
def read (t : FileTree) (path : String) : Except IoFault (List UInt8) := do
  let place ← t.find false path
  match t.entry? place with
  | some (.file bytes) => .ok bytes
  | some _ => .error .isDirectory
  | none => .error .notFound

/-- Replace or create a file. -/
def write (t : FileTree) (path : String) (bytes : List UInt8) : Except IoFault FileTree := do
  let place ← t.find true path
  match t.entry? place with
  | some .directory => .error .isDirectory
  | _ => .ok (t.put place (.file bytes))

/-- Add a directory and the directories above it. -/
def makeDirectory (t : FileTree) (place : List String) : FileTree :=
  (List.range (place.length + 1)).foldl (fun t n =>
    if (t.entry? (place.take n)).isSome then t else t.put (place.take n) .directory) t

/-- The tree as a system to run on, with the given programs. -/
def host (programs : String → List String → StateM FileTree (Except IoFault Completed)) :
    Host (StateM FileTree) where
  currentDirectory := do return pathOf (← get).current
  canonical? path := do return (← get).canonical? path
  exists? path := do return ((← get).lookup? path).isSome
  isFile path := do return (← get).isFile path
  isDirectory path := do return (← get).isDirectory path
  read path := do return (← get).read path
  write path bytes := do
    match (← get).write path bytes with
    | .ok t => set t; return .ok ()
    | .error fault => return .error fault
  runProgram := programs

end FileTree

end ConstLookup
