import ConstLookup.Cli.Arguments
import ConstLookup.Cli.Listing
import ConstLookup.Config
import ConstLookup.Headers
import ConstLookup.Include.Discover

/-!
  A run of the command line. All that a run will print or write is found first, by reading only
  (`plan`); then it is printed or written.
-/

namespace ConstLookup.Cli

/-- Why a run fails: a message, and the messages of what is behind it. -/
structure Failure where
  message : String
  causes : List String := []
  deriving DecidableEq, Repr

namespace Failure

/-- The failure for an error. -/
def ofError (e : RunError) : Failure := { message := e.message, causes := e.cause?.toList }

/-- The text that is shown for a failure. Several causes are numbered. -/
def text (f : Failure) : String :=
  let lines := match f.causes with
    | [] => []
    | [cause] => ["", "Caused by:", "    " ++ cause]
    | causes => "" :: "Caused by:" :: causes.mapIdx fun i cause => s!"    {i}: {cause}"
  String.join ((("Error: " ++ f.message) :: lines).map (· ++ "\n"))

end Failure

/-- What a run gives. -/
inductive Output where
  | print (text : String)
  | save (path text : String)
  deriving DecidableEq, Repr

/-- The settings of a configuration, changed as the command line asks. A recursive run also
searches the current directory. -/
def configure (q : Request) (directory : String) (c : Config) : Config :=
  let enabled := c.recursion.enabled || q.recursive
  let dirs := c.recursion.includeDirs ++ q.includeDirs
  let searched := if enabled && !dirs.any (Path.same directory) then directory :: dirs else dirs
  { transpose :=
      { c.transpose with
        verbose := c.transpose.verbose || q.verbose
        masks := Config.ordered (c.transpose.masks ++ q.masks) }
    emit :=
      { mode := if q.inlineFunctions then .inline else c.emit.mode
        basename := c.emit.basename && !q.noBasename }
    recursion :=
      { enabled := enabled
        includeSystem := c.recursion.includeSystem || q.parseStd
        compiler := q.compiler.getD c.recursion.compiler
        includeDirs := searched
        maxHeaders := q.maxHeaders.getD c.recursion.maxHeaders
        useCompilerDeps := c.recursion.useCompilerDeps || q.compilerDeps }
    defines := c.defines ++ q.defines }

variable {m : Type → Type} [Monad m]

/-- The configuration in a file. -/
def loadConfig (host : Host m) (path : String) : ExceptT RunError m Config := do
  match ← ExceptT.lift (host.readText path) with
  | .error fault => throw (.io fault)
  | .ok text =>
    match Config.read? text with
    | some c => return c
    | none => throw .invalidConfig

/-- The configuration that the command line names, or the defaults. -/
def baseConfig (host : Host m) (q : Request) : ExceptT Failure m Config :=
  match q.config with
  | none => return {}
  | some path =>
    (loadConfig host path).adapt fun e =>
      { message := s!"Cannot load configuration {path}", causes := e.message :: e.cause?.toList }

/-- The headers to process for an input, in processing order. -/
def headerOrder (host : Host m) (input : String) (o : Include.Options) (defines : List Define) :
    ExceptT RunError m (List String) := do
  if !o.enabled then return [input]
  else
    let r ← Include.Resolver.ofOptions host o
    if o.useCompilerDeps then r.orderByCompiler host o.compiler input defines
    else r.order host input

/-- A header file, which has to exist. -/
def readHeader (host : Host m) (path : String) : ExceptT RunError m HeaderText := do
  if ← host.isFile path then
    match ← ExceptT.lift (host.readSource path) with
    | .ok text => return { path := path, text := text }
    | .error fault => throw (.io fault)
  else throw (.fileNotFound path)

/-- Header files in turn. -/
def readHeaders (host : Host m) : List String → ExceptT RunError m (List HeaderText)
  | [] => return []
  | path :: paths => do
    let header ← readHeader host path
    return header :: (← readHeaders host paths)

/-- The headers of an input and their tables. -/
def listing (host : Host m) (input : String) (c : Config) : ExceptT Failure m Listing := do
  match Define.parseAll c.defines with
  | .error e => throw { message := e.message }
  | .ok defines =>
    let order ← (headerOrder host input c.recursion defines).adapt Failure.ofError
    let headers ← (readHeaders host order).adapt Failure.ofError
    return { headers := order, result := HeaderText.transpose c.transpose defines headers }

/-- The output file of a request may not be written. -/
def refusesOutput (host : Host m) (q : Request) : m (Option String) := do
  match q.output with
  | none => return none
  | some path => return if (← host.exists? path) && !q.force && !q.list then some path else none

/-- What a request gives. -/
def plan (host : Host m) (q : Request) : ExceptT Failure m Output := do
  match ← ExceptT.lift (refusesOutput host q) with
  | some path => throw (Failure.ofError (.outputExists path))
  | none =>
    let directory ← ExceptT.lift host.currentDirectory
    let c := configure q directory (← baseConfig host q)
    let l ← listing host q.input c
    if q.list then
      match q.format with
      | .text => return .print l.text
      | .json => return .print (l.json.render ++ "\n")
    else
      let rendered := Emit.renderHeader c.emit q.input l.result.headers
      match q.output with
      | some path => return .save path rendered
      | none => return .print rendered

/-- What a finished run leaves behind. -/
structure Outcome where
  code : Nat
  stdout : String := ""
  stderr : String := ""
  deriving DecidableEq, Repr

/-- The outcome of a failed run. -/
def Outcome.failed (f : Failure) : Outcome := { code := 1, stderr := f.text }

/-- Print or write what a request gives. -/
def perform (host : Host m) : Output → m Outcome
  | .print text => return { code := 0, stdout := text }
  | .save path text => do
    match ← host.write path text.toUTF8.toList with
    | .ok () => return { code := 0 }
    | .error fault =>
      return .failed { message := s!"Cannot write {path}", causes := [fault.message] }

/-- Run a request. -/
def Request.run (host : Host m) (q : Request) : m Outcome := do
  match ← (plan host q).run with
  | .ok output => perform host output
  | .error f => return .failed f

/-- How the command is called. -/
def usage : String :=
  "Usage: const-lookup [OPTIONS] <IN_FILE> [OUT_FILE]\n"

/-- The version of the command. -/
def version : String := "0.1.0"

/-- Run the command line. -/
def run (host : Host m) (arguments : List String) : m Outcome :=
  match Request.read arguments with
  | .ok q => q.run host
  | .error .usage => return { code := 2, stderr := usage }
  | .error .help => return { code := 0, stdout := usage }
  | .error .version => return { code := 0, stdout := version ++ "\n" }

end ConstLookup.Cli
