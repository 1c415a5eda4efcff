/-!
  The operators of constant expressions and how tightly they bind.
-/

namespace ConstLookup

/-- An operator written before its operand. -/
inductive UnaryOp where
  | complement
  | not
  | negate
  | plus
  deriving DecidableEq, Repr

/-- An operator written between its operands. -/
inductive BinaryOp where
  | paste
  | mul
  | div
  | rem
  | add
  | sub
  | shiftLeft
  | shiftRight
  | less
  | lessEq
  | greater
  | greaterEq
  | equal
  | notEqual
  | bitAnd
  | bitXor
  | bitOr
  | and
  | or
  deriving DecidableEq, Repr

/-- Spelling of a unary operator. -/
def UnaryOp.text : UnaryOp → String
  | complement => "~"
  | not => "!"
  | negate => "-"
  | plus => "+"

namespace BinaryOp

/-- Spelling of a binary operator. -/
def text : BinaryOp → String
  | paste => "##"
  | mul => "*"
  | div => "/"
  | rem => "%"
  | add => "+"
  | sub => "-"
  | shiftLeft => "<<"
  | shiftRight => ">>"
  | less => "<"
  | lessEq => "<="
  | greater => ">"
  | greaterEq => ">="
  | equal => "=="
  | notEqual => "!="
  | bitAnd => "&"
  | bitXor => "^"
  | bitOr => "|"
  | and => "&&"
  | or => "||"

/-- Binding strength; a higher operator binds tighter. -/
def precedence : BinaryOp → Nat
  | paste => 12
  | mul | div | rem => 10
  | add | sub => 9
  | shiftLeft | shiftRight => 8
  | less | lessEq | greater | greaterEq => 7
  | equal | notEqual => 6
  | bitAnd => 5
  | bitXor => 4
  | bitOr => 3
  | and => 2
  | or => 1

end BinaryOp

/-- Binding strength of a unary operator and of a cast: only pasting binds tighter. -/
def unaryPrecedence : Nat := 11

/-- Binding strength of the conditional operator: every binary operator binds tighter. -/
def conditionalPrecedence : Nat := 0

theorem BinaryOp.precedence_pos (op : BinaryOp) : conditionalPrecedence < op.precedence := by
  cases op <;> decide

end ConstLookup
