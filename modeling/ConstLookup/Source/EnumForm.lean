import ConstLookup.Source.Blocks

/-!
  The written form of enums. An enum that declares constants has a body in braces; its tag, its
  base type, and the name that a type definition gives it may be missing. Conditional blocks may
  stand around members.
-/

namespace ConstLookup.Source

/-- A member as written: its name, and the text of its value if it has one. -/
structure MemberForm where
  name : String
  value : Option String
  position : Position

/-- An enum as written. -/
structure EnumForm where
  tag : Option String
  /-- The declarator of the type definition that the enum is the type of. -/
  typedefName : Option String
  members : Blocks MemberForm
  position : Position

namespace EnumForm

/-- The token opens a bracket. -/
def opensBracket (t : Token) : Bool := ["(", "[", "\x7b"].any t.isMark

/-- The token closes a bracket. -/
def closesBracket (t : Token) : Bool := [")", "]", "\x7d"].any t.isMark

/-- The depth of brackets after a token. -/
def depthAfter (depth : Nat) (t : Token) : Nat :=
  if opensBracket t then depth + 1 else if closesBracket t then depth - 1 else depth

/-- The token is a directive. -/
def isDirective (t : Token) : Bool :=
  match t.kind with
  | .directive _ => true
  | _ => false

/-! ## Bodies -/

/-- The blocks up to the bracket that closes the open one, and how many contents and blocks
they take with it. -/
def inside (depth : Nat) : Blocks Token → Blocks Token × Nat
  | .done => (.done, 0)
  | .content t rest =>
    if closesBracket t && depth = 0 then (.done, 1)
    else
      let (more, taken) := inside (depthAfter depth t) rest
      (.content t more, taken + 1)
  | .conditional test body otherwise rest =>
    let (more, taken) := inside depth rest
    (.conditional test body otherwise more, taken + 1)

/-- The member that the tokens between two commas spell, before the members after it. -/
def addMember (written : List Token) (rest : Blocks MemberForm) : Blocks MemberForm :=
  match written with
  | [] => rest
  | name :: more =>
    if name.isWord then
      let value := match more with
        | sign :: value => if sign.isMark "=" then some (textOf value) else none
        | [] => none
      .content { name := name.spelling, value := value, position := name.position } rest
    else rest

/-- The members of a body, where `written` holds the tokens read since the last comma. -/
def membersFrom (written : List Token) (depth : Nat) : Blocks Token → Blocks MemberForm
  | .done => addMember written .done
  | .content t rest =>
    if isDirective t || (t.isMark "," && depth = 0) then
      addMember written (membersFrom [] 0 rest)
    else membersFrom (written ++ [t]) (depthAfter depth t) rest
  | .conditional test body otherwise rest =>
    addMember written
      (.conditional test (membersFrom [] 0 body) (membersFrom [] 0 otherwise)
        (membersFrom [] 0 rest))

/-- The members of a body. -/
def membersOf (body : Blocks Token) : Blocks MemberForm := membersFrom [] 0 body

/-! ## Enums -/

/-- The token at which blocks begin. -/
def head? : Blocks Token → Option Token
  | .content t _ => some t
  | _ => none

/-- The blocks begin with the mark. -/
def atMark (spelling : String) (blocks : Blocks Token) : Bool :=
  (head? blocks).any (·.isMark spelling)

/-- How many contents before the body belong to the base type of an enum: none, or a colon and
words. -/
def baseLength (blocks : Blocks Token) : Nat :=
  if atMark ":" blocks then wordsLength (blocks.drop 1) + 1 else 0
where
  /-- How many words come next. -/
  wordsLength : Blocks Token → Nat
    | .content t rest => if t.isWord then wordsLength rest + 1 else 0
    | _ => 0

/-- The enum with a body that follows the word `enum` at the given place, and how many contents
and blocks it takes. -/
def ofBlocks? (position : Position) (blocks : Blocks Token) : Option (EnumForm × Nat) :=
  let tag := (head? blocks).filter (·.isWord)
  let tagLength := if tag.isSome then 1 else 0
  let start := tagLength + baseLength (blocks.drop tagLength)
  if atMark "\x7b" (blocks.drop start) then
    let (body, taken) := inside 0 (blocks.drop (start + 1))
    some ({ tag := tag.map (·.spelling), typedefName := none, members := membersOf body,
            position := position }, start + 1 + taken)
  else none

/-! ## Type definitions -/

/-- Words that may stand beside a type without changing it. -/
def qualifiers : List String :=
  ["const", "volatile", "restrict", "__restrict__", "__extension__", "_Atomic", "_Noreturn",
    "noreturn", "_Nonnull", "constexpr"]

/-- Words that give attributes in parentheses. -/
def attributeWords : List String := ["__attribute__", "__attribute"]

/-- How many contents come before the next one that is no qualifier and no attribute. -/
def qualifiersLength (inAttribute : Bool) (depth : Nat) : Blocks Token → Nat
  | .content t rest =>
    if inAttribute then
      let depth := depthAfter depth t
      qualifiersLength (depth ≠ 0) depth rest + 1
    else if attributeWords.any t.isWordOf then qualifiersLength true 0 rest + 1
    else if qualifiers.any t.isWordOf then qualifiersLength false 0 rest + 1
    else 0
  | _ => 0

/-- The tokens of the first declarator. -/
def declarator (depth : Nat) : Blocks Token → List Token
  | .content t rest =>
    if depth = 0 && (t.isMark "," || t.isMark ";" || attributeWords.any t.isWordOf) then []
    else t :: declarator (depthAfter depth t) rest
  | _ => []

/-- How many contents and blocks there are up to the end of the statement. -/
def statementLength (depth : Nat) : Blocks Token → Nat
  | .done => 0
  | .content t rest =>
    if t.isMark ";" && depth = 0 then 1 else statementLength (depthAfter depth t) rest + 1
  | .conditional _ _ _ rest => statementLength depth rest + 1

/-- The name that a declarator gives, if there is one. -/
def typedefNameOf (blocks : Blocks Token) : Option String :=
  match declarator 0 blocks with
  | [] => none
  | ts => some (textOf ts)

/-- The enum that a type definition defines after the word `typedef`, and how many contents and
blocks the definition takes; `none` if its type is no enum. -/
def ofTypedef? (blocks : Blocks Token) : Option (Option EnumForm × Nat) :=
  let start := qualifiersLength false 0 blocks
  match blocks.drop start with
  | .content t rest =>
    if t.isWordOf "enum" then
      let length := start + 1 + statementLength 0 rest
      match ofBlocks? t.position rest with
      | some (form, taken) =>
        let after := rest.drop taken
        let typedefName := typedefNameOf (after.drop (qualifiersLength false 0 after))
        some (some { form with typedefName := typedefName }, length)
      | none => some (none, length)
    else none
  | _ => none

end EnumForm

end ConstLookup.Source
