/-!
  Paths as text. Two spellings name the same path when they have the same parts: repeated and
  final slashes do not count, nor does a `.` that is not at the start. Paths are ordered part
  by part.
-/

namespace ConstLookup.Path

/-- One part of a path. -/
inductive Part where
  | root
  | here
  | up
  | name (text : String)
  deriving DecidableEq, Repr

/-- The order of parts: the root, `.`, `..`, then names. -/
def Part.before : Part → Part → Bool
  | root, root => false
  | root, _ => true
  | _, root => false
  | here, here => false
  | here, _ => true
  | _, here => false
  | up, up => false
  | up, _ => true
  | _, up => false
  | name a, name b => a < b

/-- The segments between slashes; `run` is the open segment, reversed. -/
def segmentsFrom (run : List Char) : List Char → List String
  | [] => [String.ofList run.reverse]
  | c :: cs =>
    if c = '/' then String.ofList run.reverse :: segmentsFrom [] cs else segmentsFrom (c :: run) cs

/-- The segments between slashes. -/
def segments (path : String) : List String := segmentsFrom [] path.toList

/-- The part that a segment after the first stands for. -/
def partOf? : String → Option Part
  | "" => none
  | "." => none
  | ".." => some .up
  | s => some (.name s)

/-- The path starts at the root. -/
def isAbsolute (path : String) : Bool := path.toList.head? = some '/'

/-- The parts of a path. -/
def parts (path : String) : List Part :=
  match segments path with
  | [] => []
  | first :: rest =>
    let more := rest.filterMap partOf?
    if isAbsolute path then .root :: more
    else if first = "." then .here :: more
    else (partOf? first).toList ++ more

/-- Both spellings name the same path. -/
def same (a b : String) : Bool := parts a = parts b

/-- The order of lists of parts. -/
def partsBefore : List Part → List Part → Bool
  | [], [] => false
  | [], _ :: _ => true
  | _ :: _, [] => false
  | a :: as, b :: bs => if a = b then partsBefore as bs else a.before b

/-- The order of paths. -/
def before (a b : String) : Bool := partsBefore (parts a) (parts b)

/-- The last part, if it is a name. -/
def fileName? (path : String) : Option String :=
  match (parts path).getLast? with
  | some (.name s) => some s
  | _ => none

/-- The path `path` seen from the directory `base`. -/
def join (base path : String) : String :=
  if isAbsolute path then path
  else if base.isEmpty || base.toList.getLast? = some '/' then base ++ path
  else base ++ "/" ++ path

/-- Drop from the end whatever spells no part: slashes, and segments `.` after the first. -/
def dropIdleEnd (reversed : List Char) : List Char :=
  match reversed with
  | '/' :: rest => if rest.isEmpty then reversed else dropIdleEnd rest
  | '.' :: '/' :: rest => if rest.isEmpty then ['/'] else dropIdleEnd rest
  | cs => cs

/-- The path without its last part, spelled as in the path. The root and the empty path have
none. -/
def parent? (path : String) : Option String :=
  match (parts path).getLast? with
  | none => none
  | some .root => none
  | some _ =>
    let reversed := dropIdleEnd path.toList.reverse
    some (String.ofList (dropIdleEnd (reversed.dropWhile (· ≠ '/'))).reverse)

end ConstLookup.Path
