import ConstLookup.Expr.Number
import ConstLookup.Expr.Operator

/-!
  Tokens of constant expressions.
-/

namespace ConstLookup

/-- The marks that are not words, numbers or quoted characters. -/
inductive Mark where
  | paste
  | shiftLeft
  | shiftRight
  | lessEq
  | greaterEq
  | equal
  | notEqual
  | and
  | or
  | plus
  | minus
  | star
  | slash
  | percent
  | ampersand
  | bar
  | caret
  | tilde
  | bang
  | less
  | greater
  | question
  | colon
  | leftParen
  | rightParen
  | comma
  deriving DecidableEq, Repr

namespace Mark

/-- Every mark, those of two characters first, so that the first match is the longest one. -/
def all : List Mark :=
  [paste, shiftLeft, shiftRight, lessEq, greaterEq, equal, notEqual, and, or, plus, minus, star,
    slash, percent, ampersand, bar, caret, tilde, bang, less, greater, question, colon,
    leftParen, rightParen, comma]

/-- Spelling of a mark. -/
def text : Mark → String
  | paste => "##"
  | shiftLeft => "<<"
  | shiftRight => ">>"
  | lessEq => "<="
  | greaterEq => ">="
  | equal => "=="
  | notEqual => "!="
  | and => "&&"
  | or => "||"
  | plus => "+"
  | minus => "-"
  | star => "*"
  | slash => "/"
  | percent => "%"
  | ampersand => "&"
  | bar => "|"
  | caret => "^"
  | tilde => "~"
  | bang => "!"
  | less => "<"
  | greater => ">"
  | question => "?"
  | colon => ":"
  | leftParen => "("
  | rightParen => ")"
  | comma => ","

/-- The binary operator that the mark is between two operands. -/
def binary? : Mark → Option BinaryOp
  | paste => some .paste
  | shiftLeft => some .shiftLeft
  | shiftRight => some .shiftRight
  | lessEq => some .lessEq
  | greaterEq => some .greaterEq
  | equal => some .equal
  | notEqual => some .notEqual
  | and => some .and
  | or => some .or
  | plus => some .add
  | minus => some .sub
  | star => some .mul
  | slash => some .div
  | percent => some .rem
  | ampersand => some .bitAnd
  | bar => some .bitOr
  | caret => some .bitXor
  | less => some .less
  | greater => some .greater
  | tilde | bang | question | colon | leftParen | rightParen | comma => none

/-- The unary operator that the mark is before an operand. -/
def unary? : Mark → Option UnaryOp
  | tilde => some .complement
  | bang => some .not
  | minus => some .negate
  | plus => some .plus
  | _ => none

end Mark

/-- One token of an expression. -/
inductive Token where
  | int (v : Int)
  | float (v : Float)
  | ident (name : String)
  | mark (m : Mark)
  deriving Inhabited

namespace Token

/-- How a token is named in a message. -/
def describe : Token → String
  | int v => s!"number {v}"
  | float v => s!"number {Double.text v}"
  | ident name => s!"identifier \x60{name}\x60"
  | mark m => s!"\x60{m.text}\x60"

/-- The token is the mark `m`. -/
def isMark (m : Mark) : Token → Bool
  | mark n => n = m
  | _ => false

/-- The token may begin an operand. -/
def startsOperand : Token → Bool
  | int _ | float _ | ident _ => true
  | mark m => m = .leftParen || m.unary?.isSome

end Token

end ConstLookup
