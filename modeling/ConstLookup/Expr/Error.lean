import ConstLookup.Expr.Token

/-!
  Why a constant expression has no value.
-/

namespace ConstLookup

/-- What is wrong with the text at one offset. -/
inductive SyntaxFault where
  | unterminatedHex
  | invalidHexDigits (digits : String)
  | invalidNumber (text : String)
  | unterminatedCharacter
  | invalidCharacter (body : String)
  | invalidEscape (body : String)
  | unexpectedEnd
  | unexpected (token : Token)
  | expected (mark : Mark) (found : Option Token)
  | unbalanced

/-- Why the evaluation of an expression failed. -/
inductive EvalError where
  | unknownSymbol (name : String)
  | malformed (offset : Nat) (fault : SyntaxFault)
  | overflow
  | divisionByZero
  | notInteger (operator : String)
  | tooDeep
  | unsupported (construct : String)
  deriving Inhabited

/-- Wording of a fault. -/
def SyntaxFault.message : SyntaxFault → String
  | unterminatedHex => "unterminated hex literal"
  | invalidHexDigits digits => s!"invalid hex digits \x60{digits}\x60"
  | invalidNumber text => s!"invalid number \x60{text}\x60"
  | unterminatedCharacter => "unterminated character literal"
  | invalidCharacter body => s!"invalid character literal '{body}'"
  | invalidEscape body => s!"invalid escape '\\{body}'"
  | unexpectedEnd => "unexpected end of input"
  | unexpected token => s!"unexpected {token.describe}"
  | expected mark found =>
    let seen := (found.map Token.describe).getD "end of input"
    s!"expected \x60{mark.text}\x60, found {seen}"
  | unbalanced => "unbalanced parentheses"

/-- Wording of an evaluation error. -/
def EvalError.message : EvalError → String
  | unknownSymbol name => s!"unknown symbol \x60{name}\x60"
  | malformed offset fault => s!"syntax error at offset {offset}: {fault.message}"
  | overflow => "integer overflow"
  | divisionByZero => "division by zero"
  | notInteger operator => s!"operator \x60{operator}\x60 needs integer operands"
  | tooDeep => "expression nested too deeply"
  | unsupported construct => s!"unsupported construct \x60{construct}\x60"

end ConstLookup
