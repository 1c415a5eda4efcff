import ConstLookup.Expr.Evaluate
import Mathlib.Algebra.Group.Nat.Defs

/-!
  Expression trees: what a tree is worth (`ExprTree.eval`, from left to right) and how it is
  written (`ExprTree.tokens`, with the parentheses that the binding strengths demand and no
  others; `Spells`, tokens as text with blanks between them).
-/

namespace ConstLookup

open ConstLookup.Text

/-- A name for a constant: an identifier that is no annotation, no type and no size operator. -/
structure ConstantName where
  text : String
  identifier : isIdentifier text.toList = true
  annotation : Eval.annotations.contains text = false
  type : Eval.isTypeWord text = false
  size : text ≠ "sizeof" ∧ text ≠ "_Alignof"

/-- The mark that spells a unary operator. -/
def UnaryOp.mark : UnaryOp → Mark
  | complement => .tilde
  | not => .bang
  | negate => .minus
  | plus => .plus

/-- The mark that spells a binary operator. -/
def BinaryOp.mark : BinaryOp → Mark
  | paste => .paste
  | mul => .star
  | div => .slash
  | rem => .percent
  | add => .plus
  | sub => .minus
  | shiftLeft => .shiftLeft
  | shiftRight => .shiftRight
  | less => .less
  | lessEq => .lessEq
  | greater => .greater
  | greaterEq => .greaterEq
  | equal => .equal
  | notEqual => .notEqual
  | bitAnd => .ampersand
  | bitXor => .caret
  | bitOr => .bar
  | and => .and
  | or => .or

@[simp] theorem BinaryOp.binary?_mark (op : BinaryOp) : op.mark.binary? = some op := by
  cases op <;> rfl

/-- An expression over literals of the word and names. -/
inductive ExprTree where
  | literal (v : Nat) (fits : v < 2 ^ 127)
  | name (n : ConstantName)
  | unary (op : UnaryOp) (operand : ExprTree)
  | binary (op : BinaryOp) (left right : ExprTree)
  | conditional (condition yes no : ExprTree)

namespace ExprTree

/-! ## Meaning -/

/-- The value of a tree: operands from left to right, the first failure ends it. `&&`, `||` and
the conditional leave out the operands that their first one decides. -/
def eval (resolve : Resolver) : ExprTree → Except EvalError Number
  | literal v _ => .ok (.int v)
  | name n =>
    match resolve n.text with
    | some v => .ok v
    | none => .error (.unknownSymbol n.text)
  | unary op t => do op.apply (← t.eval resolve)
  | binary op l r => do
    let a ← l.eval resolve
    match op, a.isTrue with
    | .and, false => .ok (.int 0)
    | .or, true => .ok (.int 1)
    | op, _ => op.apply a (← r.eval resolve)
  | conditional c a b => do
    if (← c.eval resolve).isTrue then a.eval resolve else b.eval resolve

/-- Number of operators on the longest path from the root to a leaf. -/
def height : ExprTree → Nat
  | literal _ _ | name _ => 0
  | unary _ t => t.height + 1
  | binary _ l r => max l.height r.height + 1
  | conditional c a b => max c.height (max a.height b.height) + 1

/-! ## Writing -/

/-- Binding strength of the outermost operator; a leaf binds tighter than any operator. -/
def precedence : ExprTree → Nat
  | literal _ _ | name _ => 13
  | unary _ _ => unaryPrecedence
  | binary op _ _ => op.precedence
  | conditional _ _ _ => conditionalPrecedence

/-- Tokens in parentheses, if they are needed. -/
def enclosed (needed : Bool) (ts : List Token) : List Token :=
  if needed then .mark .leftParen :: ts ++ [.mark .rightParen] else ts

/-- The tokens of a tree. Binary operators group to the left and conditionals to the right. -/
def tokens : ExprTree → List Token
  | literal v _ => [.int v]
  | name n => [.ident n.text]
  | unary op t => .mark op.mark :: enclosed (t.precedence < unaryPrecedence) t.tokens
  | binary op l r =>
    enclosed (l.precedence < op.precedence) l.tokens ++
      .mark op.mark :: enclosed (r.precedence ≤ op.precedence) r.tokens
  | conditional c a b =>
    enclosed (c.precedence ≤ conditionalPrecedence) c.tokens ++
      .mark .question :: a.tokens ++ .mark .colon :: b.tokens

end ExprTree

/-- The text of a token. -/
def Token.text : Token → String
  | int v => toString v
  | float v => Double.text v
  | ident name => name
  | mark m => m.text

/-- The text holds the tokens in order, with blanks between them. -/
inductive Spells : List Token → List Char → Prop
  | single (t : Token) : Spells [t] t.text.toList
  | cons (t : Token) {ts : List Token} {blanks cs : List Char} (apart : blanks ≠ [])
      (blank : ∀ c ∈ blanks, isAsciiBlank c = true) (rest : Spells ts cs) :
      Spells (t :: ts) (t.text.toList ++ blanks ++ cs)

/-- The text of tokens with one space between them. -/
def spell : List Token → List Char
  | [] => []
  | [t] => t.text.toList
  | t :: ts => t.text.toList ++ [' '] ++ spell ts

theorem spells_spell {ts : List Token} (h : ts ≠ []) : Spells ts (spell ts) := by
  induction ts with
  | nil => exact absurd rfl h
  | cons t ts ih =>
    cases ts with
    | nil => exact .single t
    | cons u us =>
      refine .cons t (by decide) (fun c hc => ?_) (ih nofun)
      rw [List.mem_singleton.mp hc]
      rfl

end ConstLookup
