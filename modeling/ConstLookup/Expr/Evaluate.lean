import ConstLookup.Expr.Arithmetic
import ConstLookup.Expr.HexShield
import ConstLookup.Expr.Lexer

/-!
  Evaluation of constant expressions. An expression is evaluated while it is read, by precedence
  climbing over its tokens. Operands that cannot matter (the right side of a decided `&&` or
  `||`, the arm of `?:` not taken) are read with `skipping` set: their syntax counts, their
  value does not. An expression may have no value at all: an annotation has none.
-/

namespace ConstLookup

/-- What is known about names. -/
abbrev Resolver := String → Option Number

namespace Eval

/-- Words that take one parenthesised argument and have no value. -/
def annotations : List String := ["__attribute__", "__pass_object_size_n"]

/-- Words that may stand in a cast. -/
def typeWords : List String :=
  ["void", "char", "short", "int", "long", "signed", "unsigned", "float", "double", "_Bool",
    "bool", "const", "volatile", "size_t"]

/-- How deep operands may be nested. -/
def maxDepth : Nat := 200

/-- A type name: a type word, or a longer word that ends in `_t`. -/
def isTypeWord (word : String) : Bool :=
  typeWords.contains word || (2 < word.utf8ByteSize && ['_', 't'].isSuffixOf word.toList)

/-- One to three letters of an integer suffix, standing apart from their number. -/
def isIntSuffix (word : String) : Bool :=
  !word.toList.isEmpty && word.toList.length ≤ 3 && word.toList.all Lexer.isIntSuffixLetter

/-- A place in the tokens of an expression. -/
structure Cursor where
  /-- The tokens not read yet, each with its offset. -/
  rest : List (Token × Nat)
  /-- The offset reported at the end of the tokens. -/
  finish : Nat
  /-- How many operands are open. -/
  depth : Nat
  /-- The operand being read cannot matter. -/
  skipping : Bool

/-- A value, if there is one, and the place after it. -/
abbrev Step := Except EvalError (Option Number × Cursor)

namespace Cursor

/-- The token at the cursor. -/
def peek? (c : Cursor) : Option Token := c.rest.head?.map (·.1)

/-- The token at the cursor is the mark `m`. -/
def atMark (c : Cursor) (m : Mark) : Bool := (c.peek?.map (Token.isMark m)).getD false

/-- The token at the cursor may begin an operand. -/
def atOperand (c : Cursor) : Bool := (c.peek?.map Token.startsOperand).getD false

/-- The offset of the token at the cursor. -/
def offset (c : Cursor) : Nat := (c.rest.head?.map (·.2)).getD c.finish

/-- Move past one token. -/
def advance (c : Cursor) : Cursor := { c with rest := c.rest.tail }

/-- Open an operand. -/
def enter (c : Cursor) : Except EvalError Cursor :=
  if c.depth < maxDepth then .ok { c with depth := c.depth + 1 } else .error .tooDeep

/-- Close an operand. -/
def leave (c : Cursor) : Cursor := { c with depth := c.depth - 1 }

/-- Move past the mark `m`, which must come next. -/
def expect (m : Mark) (c : Cursor) : Except EvalError Cursor :=
  if c.atMark m then .ok c.advance else .error (.malformed c.offset (.expected m c.peek?))

end Cursor

/-- The tokens after the parenthesis that closes the outermost of `level + 1` open ones. -/
def afterClosing (level : Nat) : List (Token × Nat) → Option (List (Token × Nat))
  | [] => none
  | (.mark .leftParen, _) :: rest => afterClosing (level + 1) rest
  | (.mark .rightParen, _) :: rest =>
    match level with
    | 0 => some rest
    | level + 1 => afterClosing level rest
  | _ :: rest => afterClosing level rest

/-- Move past a parenthesised group. -/
def skipGroup (c : Cursor) : Except EvalError Cursor := do
  let c ← c.expect .leftParen
  match afterClosing 0 c.rest with
  | some rest => .ok { c with rest := rest }
  | none => .error (.malformed c.finish .unbalanced)

/-- After an opening parenthesis: the tokens after the cast that it begins, if it begins one.
A cast holds type words, with stars after the first of them, and is followed by an operand. -/
def afterCast (sawType : Bool) : List (Token × Nat) → Option (List (Token × Nat))
  | (.ident word, _) :: rest => if isTypeWord word then afterCast true rest else none
  | (.mark .star, _) :: rest => if sawType then afterCast true rest else none
  | (.mark .rightParen, _) :: rest =>
    if sawType && (rest.head?.map (·.1.startsOperand)).getD false then some rest else none
  | _ => none

/-- Evaluation of an operand that cannot matter puts zero in place of a failure. -/
def guarded (skipping : Bool) (result : Except EvalError Number) : Except EvalError Number :=
  match result with
  | .ok v => .ok v
  | .error e => if skipping then .ok (.int 0) else .error e

/-- Move past the arguments of a name, if it has any. -/
def skipArguments (c : Cursor) : Except EvalError Cursor :=
  if c.atMark .leftParen then skipGroup c else .ok c

/-- The value of a name. While skipping every name is zero, with its arguments if it has any. -/
def name (resolve : Resolver) (word : String) (c : Cursor) : Step :=
  if annotations.contains word then do
    let c ← skipGroup c
    return (none, c)
  else if c.skipping then do
    let c ← skipArguments c
    return (some (.int 0), c)
  else if word = "sizeof" || word = "_Alignof" || c.atMark .leftParen then
    .error (.unsupported s!"{word}(...)")
  else
    match resolve word with
    | some v => .ok (some v, c)
    | none => .error (.unknownSymbol word)

/-- Read with one operand more open. -/
def counted (read : Cursor → Step) (c : Cursor) : Step := do
  let c ← c.enter
  let (v, c) ← read c
  return (v, c.leave)

/-- Read with `skipping` set, and restore it. -/
def skipped (read : Cursor → Step) (c : Cursor) : Step := do
  let (v, after) ← read { c with skipping := true }
  return (v, { after with skipping := c.skipping })

/-- Read with `skipping` set if `skip` holds. -/
def skippedIf (skip : Bool) (read : Cursor → Step) (c : Cursor) : Step :=
  if skip then skipped read c else read c

/-- The left operand alone decides the operator. -/
def decides (op : BinaryOp) : Option Number → Bool
  | none => false
  | some l =>
    match op with
    | .and => !l.isTrue
    | .or => l.isTrue
    | _ => false

/-- Combine the operands of a binary operator; a missing one leaves the other. -/
def combine (op : BinaryOp) (skipping : Bool) :
    Option Number → Option Number → Except EvalError (Option Number)
  | some l, some r => (guarded skipping (op.apply l r)).map some
  | l, none => .ok l
  | none, r => .ok r

/-- The value of a conditional; without a condition it has none. -/
def choose (condition yes no : Option Number) : Option Number :=
  match condition with
  | some c => if c.isTrue then yes else no
  | none => none

/-- The two arms of a conditional after its question mark. The arm that is not taken is read
with `skipping` set. -/
def arms (middle last : Cursor → Step) (condition : Option Number) (c : Cursor) : Step := do
  let taken := condition.map Number.isTrue
  let (yes, c) ← skippedIf (taken = some false) middle c
  let c ← c.expect .colon
  let (no, c) ← skippedIf (taken = some true) last c
  return (choose condition yes no, c)

/-- The right operand of a binary operator with the left operand `v`, and what the operator
makes of the two. -/
def rightOperand (right : Cursor → Step) (op : BinaryOp) (v : Option Number) (c : Cursor) : Step :=
  if decides op v then do
    let (_, c) ← skipped right c
    return (some (.ofBool (op = .or)), c)
  else do
    let (r, c) ← right c
    let v ← combine op c.skipping v r
    return (v, c)

/-- What a unary operator makes of its operand; without a value it has none. -/
def unaryOperand (inner : Cursor → Step) (op : UnaryOp) (c : Cursor) : Step := do
  let (v, c) ← inner c
  match v with
  | some v => do
    let v ← guarded c.skipping (op.apply v)
    return (some v, c)
  | none => return (none, c)

/-- A parenthesised sequence after its opening parenthesis. -/
def group (inner : Cursor → Step) (c : Cursor) : Step := do
  let (v, c) ← inner c
  let c ← c.expect .rightParen
  return (v, c)

/-- One operand: a literal, a name, a unary operator with its operand, a cast, or a
parenthesised sequence. The readers of a sequence and of the operand of a unary operator are
given. -/
def primary (resolve : Resolver) (inner tight : Cursor → Step) (c : Cursor) : Step :=
  match c.peek? with
  | none => .error (.malformed c.offset .unexpectedEnd)
  | some (.int v) => .ok (some (.int v), c.advance)
  | some (.float v) => .ok (some (.float v), c.advance)
  | some (.ident word) => name resolve word c.advance
  | some (.mark .leftParen) =>
    match afterCast false c.advance.rest with
    | some rest => tight { c with rest := rest }
    | none => group inner c.advance
  | some (.mark m) =>
    match m.unary? with
    | some op => unaryOperand tight op c.advance
    | none => .error (.malformed c.offset (.unexpected (.mark m)))

mutual

/-- Expressions separated by commas; the last one is the value. -/
def sequence (resolve : Resolver) : Nat → Cursor → Step
  | 0, _ => .error .tooDeep
  | fuel + 1, c => do
    let (v, c) ← expression resolve fuel conditionalPrecedence c
    sequenceTail resolve fuel v c

/-- The part of a sequence after an expression with value `v`. -/
def sequenceTail (resolve : Resolver) : Nat → Option Number → Cursor → Step
  | 0, _, _ => .error .tooDeep
  | fuel + 1, v, c =>
    if c.atMark .comma then do
      let (v, c) ← expression resolve fuel conditionalPrecedence c.advance
      sequenceTail resolve fuel v c
    else .ok (v, c)

/-- An expression whose binary operators all bind tighter than `level`. -/
def expression (resolve : Resolver) : Nat → Nat → Cursor → Step
  | 0, _, _ => .error .tooDeep
  | fuel + 1, level, c =>
    counted (fun c => do
      let (v, c) ← operand resolve fuel c
      let (v, c) ← operands resolve fuel v c
      operators resolve fuel level v c) c

/-- The operand after operands without a value. -/
def operands (resolve : Resolver) : Nat → Option Number → Cursor → Step
  | 0, _, _ => .error .tooDeep
  | fuel + 1, v, c =>
    if v.isNone && c.atOperand then do
      let (v, c) ← operand resolve fuel c
      operands resolve fuel v c
    else .ok (v, c)

/-- The operators after an expression with value `v`, as far as they bind tighter than
`level`. -/
def operators (resolve : Resolver) : Nat → Nat → Option Number → Cursor → Step
  | 0, _, _, _ => .error .tooDeep
  | fuel + 1, level, v, c =>
    match c.peek? with
    | some (.ident word) =>
      if isIntSuffix word then operators resolve fuel level v c.advance else .ok (v, c)
    | some (.mark .question) =>
      if level ≤ conditionalPrecedence then do
        let (v, c) ← arms (sequence resolve fuel)
          (expression resolve fuel conditionalPrecedence) v c.advance
        operators resolve fuel level v c
      else .ok (v, c)
    | some (.mark m) =>
      match m.binary? with
      | none => .ok (v, c)
      | some op =>
        if op.precedence ≤ level then .ok (v, c)
        else do
          let (v, c) ← rightOperand (expression resolve fuel op.precedence) op v c.advance
          operators resolve fuel level v c
    | _ => .ok (v, c)

/-- One operand, counted as open while it is read. -/
def operand (resolve : Resolver) : Nat → Cursor → Step
  | 0, _ => .error .tooDeep
  | fuel + 1, c =>
    counted (primary resolve (sequence resolve fuel)
      (expression resolve fuel unaryPrecedence)) c

end

/-- Steps that suffice to read the given number of tokens: between two tokens read, at most a
sequence, an expression and an operand are opened. -/
def fuelFor (tokens : Nat) : Nat := 3 * tokens + 3

/-- The offset just after the start of the last token. -/
def finishOf (tokens : List (Token × Nat)) : Nat :=
  match tokens.getLast? with
  | some (_, offset) => offset + 1
  | none => 0

/-- The cursor before the first token. -/
def Cursor.start (tokens : List (Token × Nat)) : Cursor :=
  { rest := tokens, finish := finishOf tokens, depth := 0, skipping := false }

/-- Evaluate the tokens of an expression; no tokens have no value. -/
def tokens (resolve : Resolver) (ts : List (Token × Nat)) : Except EvalError (Option Number) :=
  if ts.isEmpty then .ok none
  else do
    let (v, c) ← sequence resolve (fuelFor ts.length) (Cursor.start ts)
    match c.peek? with
    | some token => .error (.malformed c.offset (.unexpected token))
    | none => .ok v

end Eval

/-- Evaluate an expression whose hexadecimal literals are marked. -/
def evaluateShielded (resolve : Resolver) (text : String) : Except EvalError (Option Number) := do
  Eval.tokens resolve (← Lexer.tokens text.toList)

/-- Evaluate a constant expression. -/
def evaluate (resolve : Resolver) (text : String) : Except EvalError (Option Number) :=
  evaluateShielded resolve (HexShield.shield text)

end ConstLookup
