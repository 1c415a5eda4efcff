import ConstLookup.Text.Word

/-!
  The arguments of the command line. Options are spelled with two dashes, with their value after
  an equals sign or as the next argument, or as one letter after a dash, where several letters
  may share the dash and a value may follow its letter at once. All arguments after `--` are
  file names.
-/

namespace ConstLookup.Cli

/-- The form of a listing. -/
inductive ListFormat where
  | text
  | json
  deriving DecidableEq, Repr

/-- An option without a value; each may be given once. -/
inductive Switch where
  | recursive
  | parseStd
  | force
  | verbose
  | inlineFunctions
  | noBasename
  | compilerDeps
  | list
  deriving DecidableEq, Repr

/-- An option with a value. -/
inductive Setting where
  | define
  | compiler
  | includeDir
  | maxHeaders
  | mask
  | format
  | config
  deriving DecidableEq, Repr

/-- An option that the command line knows. -/
inductive Known where
  | switch (s : Switch)
  | setting (s : Setting)
  | help
  | version

/-- Options by their long names. -/
def longNames : List (String × Known) :=
  [("recursive", .switch .recursive), ("parse-std", .switch .parseStd),
    ("compiler", .setting .compiler), ("max-headers", .setting .maxHeaders),
    ("force", .switch .force), ("verbose", .switch .verbose),
    ("inline", .switch .inlineFunctions), ("mask", .setting .mask),
    ("no-basename", .switch .noBasename), ("compiler-deps", .switch .compilerDeps),
    ("list", .switch .list), ("format", .setting .format), ("config", .setting .config),
    ("help", .help), ("version", .version)]

/-- Options by their letters. -/
def letters : List (Char × Known) :=
  [('D', .setting .define), ('r', .switch .recursive), ('I', .setting .includeDir),
    ('f', .switch .force), ('v', .switch .verbose), ('h', .help), ('V', .version)]

/-- The option with a long name. -/
def named? (name : String) : Option Known := (longNames.find? (·.1 = name)).map (·.2)

/-- The option with a letter. -/
def lettered? (letter : Char) : Option Known := (letters.find? (·.1 = letter)).map (·.2)

/-- Options that may be given more than once. -/
def Setting.isRepeatable : Setting → Bool
  | define | includeDir | mask => true
  | _ => false

/-- A number of headers; a plus sign may stand before it. -/
def headerCount? (text : String) : Option Nat :=
  let cs := match text.toList with
    | '+' :: rest => rest
    | rest => rest
  (Text.digits? 10 cs).filter (· < UInt64.size)

/-- The form of a listing by its name. -/
def listFormat? : String → Option ListFormat
  | "text" => some .text
  | "json" => some .json
  | _ => none

/-- A value is of the kind that its option takes. -/
def Setting.accepts (s : Setting) (value : String) : Bool :=
  match s with
  | maxHeaders => (headerCount? value).isSome
  | format => (listFormat? value).isSome
  | includeDir | config => !value.isEmpty
  | define | compiler | mask => true

/-- What the arguments read so far give. -/
structure Given where
  switches : List Switch := []
  settings : List (Setting × String) := []
  files : List String := []

/-- Why the arguments lead to no run. -/
inductive Stop where
  /-- The arguments are wrong. -/
  | usage
  /-- The user asks what the options are. -/
  | help
  /-- The user asks for the version. -/
  | version
  deriving DecidableEq, Repr

namespace Given

/-- Add an option without a value. -/
def addSwitch (g : Given) (s : Switch) : Except Stop Given :=
  if g.switches.contains s then .error .usage
  else .ok { g with switches := g.switches ++ [s] }

/-- Add an option with its value. -/
def addSetting (g : Given) (s : Setting) (value : String) : Except Stop Given :=
  let again := !s.isRepeatable && g.settings.any (·.1 = s)
  if again || !s.accepts value then .error .usage
  else .ok { g with settings := g.settings ++ [(s, value)] }

/-- Add a file name; there are two at most. -/
def addFile (g : Given) (name : String) : Except Stop Given :=
  if name.isEmpty || 2 ≤ g.files.length then .error .usage
  else .ok { g with files := g.files ++ [name] }

/-- All values of an option. -/
def valuesOf (g : Given) (s : Setting) : List String :=
  (g.settings.filter (·.1 = s)).map (·.2)

/-- The value of an option. -/
def value? (g : Given) (s : Setting) : Option String := (g.valuesOf s).head?

end Given

/-- An argument that is an option, or marks the end of options. -/
def isOptionLike (argument : String) : Bool :=
  argument.toList.head? = some '-' && argument ≠ "-"

/-- The letters after a dash. The answer also holds an option that still needs its value. -/
def readLetters (g : Given) : List Char → Except Stop (Given × Option Setting)
  | [] => .ok (g, none)
  | c :: cs =>
    match lettered? c with
    | none => .error .usage
    | some .help => .error .help
    | some .version => .error .version
    | some (.switch s) => do
      let g ← g.addSwitch s
      readLetters g cs
    | some (.setting s) =>
      match cs with
      | [] => .ok (g, some s)
      | '=' :: value => do
        let g ← g.addSetting s (String.ofList value)
        .ok (g, none)
      | value => do
        let g ← g.addSetting s (String.ofList value)
        .ok (g, none)

/-- The text after two dashes. The answer also holds an option that still needs its value. -/
def readLong (g : Given) (cs : List Char) : Except Stop (Given × Option Setting) :=
  let name := String.ofList (cs.takeWhile (· ≠ '='))
  let value := (cs.dropWhile (· ≠ '=')).tail?.map String.ofList
  match named? name, value with
  | some (.switch s), none => do
    let g ← g.addSwitch s
    .ok (g, none)
  | some (.setting s), none => .ok (g, some s)
  | some (.setting s), some value => do
    let g ← g.addSetting s value
    .ok (g, none)
  | some .help, none => .error .help
  | some .version, none => .error .version
  | _, _ => .error .usage

/-- Read arguments; `waiting` is an option that takes the next argument as its value. -/
def readFrom (g : Given) (waiting : Option Setting) : List String → Except Stop Given
  | [] => if waiting.isSome then .error .usage else .ok g
  | argument :: rest =>
    match waiting with
    | some s =>
      if isOptionLike argument then .error .usage
      else do
        let g ← g.addSetting s argument
        readFrom g none rest
    | none =>
      if argument = "--" then rest.foldlM Given.addFile g
      else
        match argument.toList with
        | '-' :: '-' :: cs => do
          let (g, waiting) ← readLong g cs
          readFrom g waiting rest
        | '-' :: c :: cs => do
          let (g, waiting) ← readLetters g (c :: cs)
          readFrom g waiting rest
        | _ => do
          let g ← g.addFile argument
          readFrom g none rest

/-- What the command line asks for. -/
structure Request where
  input : String
  output : Option String := none
  defines : List String := []
  recursive : Bool := false
  parseStd : Bool := false
  compiler : Option String := none
  includeDirs : List String := []
  maxHeaders : Option Nat := none
  force : Bool := false
  verbose : Bool := false
  inlineFunctions : Bool := false
  masks : List String := []
  noBasename : Bool := false
  compilerDeps : Bool := false
  list : Bool := false
  format : ListFormat := .text
  config : Option String := none

/-- The request that arguments spell. -/
def Request.ofGiven (g : Given) : Except Stop Request :=
  match g.files with
  | [] => .error .usage
  | input :: more =>
    .ok {
      input := input
      output := more.head?
      defines := g.valuesOf .define
      recursive := g.switches.contains .recursive
      parseStd := g.switches.contains .parseStd
      compiler := g.value? .compiler
      includeDirs := g.valuesOf .includeDir
      maxHeaders := (g.value? .maxHeaders).bind headerCount?
      force := g.switches.contains .force
      verbose := g.switches.contains .verbose
      inlineFunctions := g.switches.contains .inlineFunctions
      masks := g.valuesOf .mask
      noBasename := g.switches.contains .noBasename
      compilerDeps := g.switches.contains .compilerDeps
      list := g.switches.contains .list
      format := ((g.value? .format).bind listFormat?).getD .text
      config := g.value? .config }

/-- Read the arguments of the command line. -/
def Request.read (arguments : List String) : Except Stop Request := do
  Request.ofGiven (← readFrom {} none arguments)

end ConstLookup.Cli
