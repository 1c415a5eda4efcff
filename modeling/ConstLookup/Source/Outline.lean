import ConstLookup.Source.EnumForm

/-!
  Whether a source has the outline of C. The check does not read expressions or types: it looks
  at single tokens, at the brackets of every branch, at pairs of tokens that never stand side by
  side, and at how statements and members end.
-/

namespace ConstLookup.Source.Outline

/-! ## Tokens side by side -/

/-- Marks that need an operand after them. -/
def openMarks : List String :=
  ["=", "+=", "-=", "*=", "/=", "%=", "&=", "|=", "^=", "<<=", ">>=", "+", "-", "/", "%", "<<",
    ">>", "<", ">", "<=", ">=", "==", "!=", "&&", "||", "&", "|", "^", "!", "~", "?", ".", "->"]

/-- Marks that need an operand before them. -/
def binaryMarks : List String :=
  ["=", "+=", "-=", "*=", "/=", "%=", "&=", "|=", "^=", "<<=", ">>=", "/", "%", "<<", ">>", "<",
    ">", "<=", ">=", "==", "!=", "||", "|", "^", "?", "->"]

/-- Marks after which an expression or a statement begins. -/
def startMarks : List String := ["(", "[", "\x7b", ",", ";", "="]

/-- Marks before which an expression or a statement ends. -/
def endMarks : List String := [")", "]", "\x7d", ",", ";"]

/-- Words that name a type or begin one, and stand after no identifier. -/
def typeWords : List String :=
  ["int", "char", "void", "float", "double", "bool", "size_t", "struct", "union", "enum",
    "typedef"]

/-- Words of the language that may stand before a type or a number. -/
def leadWords : List String :=
  ["const", "volatile", "static", "extern", "inline", "register", "auto", "restrict", "typedef",
    "unsigned", "signed", "long", "short", "return", "case", "sizeof", "else", "do", "goto",
    "int", "char", "void", "float", "double", "_Noreturn", "noreturn", "_Atomic", "_Thread_local",
    "thread_local", "__thread", "__inline", "__inline__", "__forceinline", "__restrict__",
    "__extension__", "constexpr", "_Nonnull", "__attribute__", "__cdecl", "__stdcall",
    "__fastcall", "__vectorcall", "__thiscall", "__clrcall", "offsetof", "_Alignof", "alignof"]

/-- The token is a number or a literal. -/
def isLiteral (t : Token) : Bool := t.kind = .number || t.kind = .quoted

/-- The tokens never stand side by side. -/
def clash (a b : Token) : Bool :=
  (openMarks.any a.isMark && endMarks.any b.isMark) ||
    (a.isMark "," && [")", "]", ";", ","].any b.isMark) ||
    (startMarks.any a.isMark && b.isMark ",") ||
    (startMarks.any a.isMark && binaryMarks.any b.isMark) ||
    (a.kind = .number && (b.isWord || isLiteral b || b.isMark "(" || b.isMark "\x7b")) ||
    (a.kind = .quoted && b.kind = .number) ||
    (a.isWord && !leadWords.any a.isWordOf && (b.kind = .number || typeWords.any b.isWordOf))

/-! ## Brackets -/

/-- What stands between two brackets, or in a branch. -/
inductive Frame where
  /-- Statements or declarations. -/
  | statements
  /-- The fields of a struct or union. -/
  | fields
  /-- The members of an enum. -/
  | members
  /-- Anything else between braces, or what stands in parentheses or square brackets. -/
  | items (closing : String)
  deriving DecidableEq

/-- The mark that closes a frame. -/
def Frame.closing : Frame → String
  | items closing => closing
  | _ => "\x7d"

/-- What the words since the last mark announce. -/
inductive Head where
  | plain
  /-- The word `enum` stands before the words. -/
  | enumeration
  /-- The word `struct` or `union` stands before the words. -/
  | aggregate
  /-- A value is on its way: after a sign `=` or the word `return`. -/
  | value
  deriving DecidableEq

/-- Words before a group of attributes. -/
def attributeWords : List String := ["__attribute__", "__declspec", "_Alignas", "alignas"]

/-- An open bracket. -/
structure Opened where
  frame : Frame
  /-- What is announced after the bracket is closed. -/
  after : Head
  deriving DecidableEq

/-- A place in a branch. -/
structure Place where
  /-- What the branch stands in. -/
  base : Frame
  /-- The open brackets of the branch, innermost first. -/
  frames : List Opened := []
  /-- The token before the place; none at the start and after a directive or a block. -/
  previous : Option Token := none
  head : Head := .plain
  /-- A brace has just closed a type or a value, so that the statement goes on. -/
  midway : Bool := false

namespace Place

/-- What the place stands in. -/
def frame (p : Place) : Frame := (p.frames.head?.map (·.frame)).getD p.base

/-- The token before the place is one of the marks. -/
def follows (p : Place) (marks : List String) : Bool := p.previous.any fun t => marks.any t.isMark

/-- The token before the place is one of the words. -/
def followsWord (p : Place) (words : List String) : Bool :=
  p.previous.any fun t => words.any t.isWordOf

/-- A statement may begin at the place. -/
def startsStatement (p : Place) : Bool :=
  !p.midway && (p.previous.isNone || p.follows [";", "\x7b", "\x7d", ":"])

/-- What a brace opens at the place. -/
def braceFrame (p : Place) : Frame :=
  match p.head, p.frame with
  | .enumeration, _ => .members
  | .aggregate, _ => .fields
  | .plain, .statements =>
    if p.startsStatement || p.follows [")"] || p.followsWord ["else", "do"] ||
        p.previous.any (·.kind = .quoted) then .statements
    else .items "\x7d"
  | .plain, .items ")" => if p.follows ["("] then .statements else .items "\x7d"
  | _, _ => .items "\x7d"

/-- What is announced after a token. -/
def headAfter (p : Place) (t : Token) : Head :=
  if t.isWordOf "enum" then .enumeration
  else if t.isWordOf "struct" || t.isWordOf "union" then .aggregate
  else if t.isMark "=" || t.isWordOf "return" then .value
  else if t.isMark ";" || (t.isMark "," && p.frame = .members) then .plain
  else if t.isWord || p.head = .value then p.head
  else if t.isMark ":" && p.head = .enumeration then .enumeration
  else .plain

/-- What is announced after parentheses or square brackets that open at the place: a value stays
announced, and so does a struct or union before its attributes. -/
def headAfterGroup (p : Place) : Head :=
  if p.head = .value || (p.head = .aggregate && p.followsWord attributeWords) then p.head
  else .plain

/-- The place after a token. -/
def advance (p : Place) (t : Token) : Place :=
  { p with previous := some t, head := p.headAfter t, midway := false }

/-- The place after a bracket that opens a frame. -/
def enter (p : Place) (t : Token) (f : Frame) (head after : Head) : Place :=
  { p.advance t with frames := { frame := f, after := after } :: p.frames, head := head }

/-- The contents of a frame may end at the place. -/
def mayEnd (p : Place) : Bool :=
  match p.frame with
  | .statements | .fields => p.startsStatement
  | _ => !p.follows openMarks

/-- The token may stand at the place among the members of an enum: a member is a name, perhaps
with a sign `=` and a value, and members have commas between them. -/
def fitsMembers (p : Place) (t : Token) : Bool :=
  if p.previous.isNone || p.follows ["\x7b", ","] then t.isWord || [",", "\x7d"].any t.isMark
  else if p.previous.any (·.isWord) then
    if p.head = .value then !t.isWord || p.followsWord leadWords
    else ["=", ",", "\x7d"].any t.isMark
  else true

/-- The place after a token, if the token may stand there. -/
def after? (p : Place) (t : Token) : Option Place :=
  if p.previous.any (clash · t) || (p.frame = .members && !p.fitsMembers t) ||
      (p.midway && typeWords.any t.isWordOf) then none
  else if t.isMark "(" then some (p.enter t (.items ")") (p.headAfter t) p.headAfterGroup)
  else if t.isMark "[" then some (p.enter t (.items "]") (p.headAfter t) p.headAfterGroup)
  else if t.isMark "\x7b" then
    some (p.enter t p.braceFrame .plain (if p.head = .value then .value else .plain))
  else if [")", "]", "\x7d"].any t.isMark then
    match p.frames with
    | opened :: frames =>
      if t.isMark opened.frame.closing && p.mayEnd then
        some { p.advance t with
          frames := frames
          head := opened.after
          midway := t.isMark "\x7d" && opened.frame ≠ .statements }
      else none
    | [] => none
  else some (p.advance t)

/-- A block or a directive may stand at the place. -/
def mayInterrupt (p : Place) : Bool :=
  match p.frame with
  | .statements | .fields => p.startsStatement
  | .members => p.previous.isNone || p.follows [",", "\x7b"]
  | .items _ => false

end Place

/-- A directive may stand before the rest of its frame. -/
def mayStand (p : Place) (d : Directive) (rest : Blocks Token) : Bool :=
  p.mayInterrupt &&
    (p.frame ≠ .members ||
      match d, rest with
      | .call _ _, .content t _ => t.isMark "," || t.isMark "\x7d"
      | _, _ => false)

/-! ## Blocks among members -/

/-- The branches of a block: its body and those that stand in for it. -/
def branches (body : Blocks Token) : Blocks Token → List (Blocks Token)
  | .done => [body]
  | .conditional _ next otherwise .done => body :: branches next otherwise
  | otherwise => [body, otherwise]

/-- The contents end with a comma, with no block or directive between them; `closed` says that
a comma stands before them. -/
def endsWithComma (closed : Bool) : Blocks Token → Bool
  | .done => closed
  | .content t rest => !EnumForm.isDirective t && endsWithComma (t.isMark ",") rest
  | .conditional _ _ _ _ => false

/-- The contents hold no comma outside brackets, and no block or directive. -/
def hasNoComma (depth : Nat) : Blocks Token → Bool
  | .done => true
  | .content t rest =>
    !EnumForm.isDirective t && !(depth = 0 && t.isMark ",") &&
      hasNoComma (EnumForm.depthAfter depth t) rest
  | .conditional _ _ _ _ => false

/-- A block with the given branches may stand among the members of an enum before the rest of
them: every member in it has a comma, or there are no commas and the enum ends after it. A block
with nothing after it is a further branch, which has been looked at together with the first. -/
def mayStandAmong (bs : List (Blocks Token)) : Blocks Token → Bool
  | .done => true
  | rest => bs.all (endsWithComma true) || (EnumForm.atMark "\x7d" rest && bs.all (hasNoComma 0))

/-! ## Sources -/

/-- A branch is sound from a place on. -/
def isSoundFrom (p : Place) : Blocks Token → Bool
  | .done => p.frames.isEmpty && p.mayEnd
  | .content t rest =>
    match t.kind with
    | .directive d => mayStand p d rest && isSoundFrom { p with previous := none } rest
    | _ =>
      match p.after? t with
      | some next => isSoundFrom next rest
      | none => false
  | .conditional _ body otherwise rest =>
    p.mayInterrupt && (p.frame ≠ .members || mayStandAmong (branches body otherwise) rest) &&
      isSoundFrom { base := p.frame } body &&
      isSoundFrom { base := p.frame } otherwise && isSoundFrom { p with previous := none } rest

/-- Every block has an end, where `opened` blocks are open before the tokens. -/
def isClosed (opened : Nat) : List Token → Bool
  | [] => opened = 0
  | t :: ts =>
    match t.kind with
    | .directive (.opens _) => isClosed (opened + 1) ts
    | .directive .endif => isClosed (opened - 1) ts
    | _ => isClosed opened ts

/-- A source with the given tokens and blocks has the outline of C. -/
def isSound (ts : List Token) (blocks : Blocks Token) : Bool :=
  ts.all (·.sound) && isClosed 0 ts && isSoundFrom { base := .statements } blocks

end ConstLookup.Source.Outline
