import ConstLookup.Text.Utf8

/-!
  What a run needs from the system that it runs on: looking up files, reading and writing them,
  and running a compiler. The operations live in a monad of the caller's choice, so the same run
  works on real files and on a tree of files in memory.
-/

namespace ConstLookup

/-- Why a file operation fails. -/
inductive IoFault where
  | notFound
  | permissionDenied
  | notDirectory
  | isDirectory
  | tooManyLinks
  /-- The file is not UTF-8 text. -/
  | invalidText
  /-- Any other cause, in words. -/
  | other (text : String)
  deriving DecidableEq, Repr

/-- Wording of a fault. -/
def IoFault.message : IoFault → String
  | notFound => "No such file or directory (os error 2)"
  | permissionDenied => "Permission denied (os error 13)"
  | notDirectory => "Not a directory (os error 20)"
  | isDirectory => "Is a directory (os error 21)"
  | tooManyLinks => "Too many levels of symbolic links (os error 40)"
  | invalidText => "stream did not contain valid UTF-8"
  | other text => text

/-- What a finished program leaves behind. -/
structure Completed where
  /-- Zero if the program succeeded. -/
  code : Nat
  stdout : List UInt8
  stderr : List UInt8

/-- A system to run on. -/
structure Host (m : Type → Type) where
  currentDirectory : m String
  /-- The absolute path without links of an existing file or directory. -/
  canonical? : String → m (Option String)
  /-- The path names an existing file or directory. -/
  exists? : String → m Bool
  isFile : String → m Bool
  isDirectory : String → m Bool
  read : String → m (Except IoFault (List UInt8))
  /-- Replace or create a file. -/
  write : String → List UInt8 → m (Except IoFault Unit)
  /-- Run a program with arguments and without input. -/
  runProgram : String → List String → m (Except IoFault Completed)

namespace Host

/-- The text of a source file. Bytes that are not UTF-8 are replaced. -/
def readSource {m : Type → Type} [Monad m] (host : Host m) (path : String) :
    m (Except IoFault String) := do
  match ← host.read path with
  | .ok bytes => return .ok (Text.Utf8.lossy bytes)
  | .error fault => return .error fault

/-- The text of a file that must be UTF-8. -/
def readText {m : Type → Type} [Monad m] (host : Host m) (path : String) :
    m (Except IoFault String) := do
  match ← host.read path with
  | .ok bytes =>
    match Text.Utf8.strict? bytes with
    | some text => return .ok text
    | none => return .error .invalidText
  | .error fault => return .error fault

end Host

end ConstLookup
