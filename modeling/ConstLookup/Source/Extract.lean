import ConstLookup.Source.Body
import ConstLookup.Source.Declarations
import ConstLookup.Source.EnumForm
import ConstLookup.Source.Environment
import ConstLookup.Source.Lexer
import ConstLookup.Source.Linkage
import ConstLookup.Source.Outline

/-!
  The constants that a source declares under an environment of macros. The environment changes
  while the source is read, so a test sees the macros that stand before it, and it is handed on
  to the source that is read next.
-/

namespace ConstLookup.Source

/-! ## What a source is made of -/

/-- A part of a source that declares constants or changes the environment. -/
inductive Part where
  /-- An object-like macro with the raw text of its body. -/
  | definition (name : String) (body : Option String) (position : Position)
  /-- A function-like macro. -/
  | functionDefinition (name : String)
  /-- The end of a definition. -/
  | removal (name : String)
  | enumeration (form : EnumForm)

/-- The part that a directive is, if it matters. -/
def Part.ofDirective? (position : Position) : Directive → Option Part
  | .define name value => some (.definition name value position)
  | .defineFunction name => some (.functionDefinition name)
  | .call "#undef" (some name) => some (.removal (String.ofList (Text.trim name.toList)))
  | _ => none

/-- The parts of a source; the first `skip` contents and blocks belong to a part already read. -/
def partsFrom (skip : Nat) : Blocks Token → Blocks Part
  | .done => .done
  | .conditional test body otherwise rest =>
    match skip with
    | skip + 1 => partsFrom skip rest
    | 0 => .conditional test (partsFrom 0 body) (partsFrom 0 otherwise) (partsFrom 0 rest)
  | .content t rest =>
    match skip with
    | skip + 1 => partsFrom skip rest
    | 0 =>
      match t.kind with
      | .directive d =>
        match Part.ofDirective? t.position d with
        | some part => .content part (partsFrom 0 rest)
        | none => partsFrom 0 rest
      | .word =>
        if t.isWordOf "typedef" then
          match EnumForm.ofTypedef? rest with
          | some (some form, taken) => .content (.enumeration form) (partsFrom taken rest)
          | some (none, taken) => partsFrom taken rest
          | none => partsFrom 0 rest
        else if t.isWordOf "enum" then
          match EnumForm.ofBlocks? t.position rest with
          | some (form, taken) => .content (.enumeration form) (partsFrom taken rest)
          | none => partsFrom 0 rest
        else partsFrom 0 rest
      | _ => partsFrom 0 rest

/-- The parts of a source. -/
def parts (blocks : Blocks Token) : Blocks Part := partsFrom 0 blocks

/-! ## Reading parts -/

/-- What is known at a place of a source. Declarations are listed last one first. -/
structure Reading where
  environment : Environment
  macros : List MacroDecl := []
  enums : List EnumDecl := []

/-- A place in a file. -/
def locationIn (file : String) (p : Position) : Location :=
  { file := file, line := p.line, column := p.column }

/-- The members found so far, last one first, with one more. A member without value is one more
than the member before it, or zero. -/
def addMember (file : String) (found : List MemberDecl) (m : MemberForm) : List MemberDecl :=
  let value := match m.value, found with
    | some text, _ => Body.clean text
    | none, previous :: _ => s!"({previous.name}) + 1"
    | none, [] => "0"
  { name := m.name, value := value, location := locationIn file m.position } :: found

/-- The members of the branches taken. -/
def activeMembers (file : String) (env : Environment) (form : EnumForm) : List MemberDecl :=
  (form.members.run (fun _ test => test.holds env) (addMember file) []).reverse

/-- The enum that a form declares: it is named by its tag, by its type definition or by its
first member. -/
def EnumForm.declare? (file : String) (env : Environment) (form : EnumForm) : Option EnumDecl :=
  let members := activeMembers file env form
  let name := (form.tag.or form.typedefName).or (members.head?.map (·.name))
  name.map fun name =>
    { name := name, members := members, location := locationIn file form.position }

namespace Reading

/-- Read a part. -/
def step (file : String) (r : Reading) : Part → Reading
  | .definition name body position =>
    let body := Body.clean (body.getD "")
    { r with
      environment := r.environment.insert name body
      macros := { name := name, body := body, location := locationIn file position } :: r.macros }
  | .functionDefinition name => { r with environment := r.environment.insert name "" }
  | .removal name => { r with environment := r.environment.erase name }
  | .enumeration form =>
    match form.declare? file r.environment with
    | some e => { r with enums := e :: r.enums }
    | none => r

/-- Read parts under an environment. -/
def ofParts (file : String) (env : Environment) (blocks : Blocks Part) : Reading :=
  blocks.run (fun r test => test.holds r.environment) (step file) { environment := env }

end Reading

/-- The tokens of a source without its linkage guards. -/
def tokensOf (source : String) : List Token := Lexer.tokens (Linkage.strip source.toList)

/-- The declarations of a source under an environment, and the environment after it. -/
def declarations (env : Environment) (file source : String) : Declarations × Environment :=
  let ts := tokensOf source
  let blocks := Blocks.ofTokens ts
  let r := Reading.ofParts file env (parts blocks)
  let errors := if Outline.isSound ts blocks then [] else [s!"{file}: syntax errors in source"]
  ({ macros := r.macros.reverse, enums := r.enums.reverse, errors := errors }, r.environment)

end ConstLookup.Source
