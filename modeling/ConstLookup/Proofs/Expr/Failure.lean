import ConstLookup.Expr.Arithmetic

/-!
  Which failures an operator has: an overflow, a division by zero, an operand that is no
  integer, or a construct that is not supported (`apply_fails`). In particular an operator never
  reports an unknown name or too deep a nesting.
-/

namespace ConstLookup

/-- Every failure of the outcome satisfies `P`. -/
def FailsWith (P : EvalError → Prop) {α : Type} (r : Except EvalError α) : Prop :=
  ∀ e, r = .error e → P e

namespace FailsWith

variable {P Q : EvalError → Prop} {α β : Type} {r s : Except EvalError α}

theorem ok (a : α) : FailsWith P (.ok a : Except EvalError α) := nofun

theorem error {e : EvalError} (h : P e) : FailsWith P (.error e : Except EvalError α) := by
  rintro _ ⟨⟩
  exact h

theorem ite {p : Prop} [Decidable p] (hr : FailsWith P r) (hs : FailsWith P s) :
    FailsWith P (if p then r else s) := by
  split
  · exact hr
  · exact hs

theorem bind {f : α → Except EvalError β} (h : FailsWith P r) (hf : ∀ a, FailsWith P (f a)) :
    FailsWith P (r >>= f) := by
  match r, h with
  | .error e, h => exact error (h e rfl)
  | .ok a, _ => exact hf a

theorem map (h : FailsWith P r) (f : α → β) : FailsWith P (r.map f) := by
  match r, h with
  | .error e, h => exact error (h e rfl)
  | .ok a, _ => exact ok (f a)

theorem mono (h : FailsWith P r) (hPQ : ∀ e, P e → Q e) : FailsWith Q r :=
  fun e he => hPQ e (h e he)

end FailsWith

/-- A failure of an operator, as opposed to one of a name or of the text. -/
def EvalError.FromOperator : EvalError → Prop
  | overflow | divisionByZero | notInteger _ | unsupported _ => True
  | unknownSymbol _ | malformed _ _ | tooDeep => False

theorem checkedInt_fails (v : Int) : FailsWith EvalError.FromOperator (checkedInt v) :=
  .ite (.ok _) (.error trivial)

theorem shiftAmount_fails (v : Int) : FailsWith EvalError.FromOperator (shiftAmount v) :=
  .ite (.ok _) (.error trivial)

theorem BinaryOp.applyInt_fails (op : BinaryOp) (l r : Int) :
    FailsWith EvalError.FromOperator (op.applyInt l r) := by
  cases op
  case add | sub | mul => exact checkedInt_fails _
  case div => exact .ite (.error trivial) (checkedInt_fails _)
  case rem => exact .ite (.error trivial) (.ite (checkedInt_fails _) (.error trivial))
  case shiftLeft | shiftRight => exact (shiftAmount_fails r).map _
  case paste => exact .ite (.error trivial) (checkedInt_fails _)
  all_goals exact .ok _

theorem BinaryOp.applyFloat_fails (op : BinaryOp) (l r : Float) :
    FailsWith EvalError.FromOperator (op.applyFloat l r) := by
  cases op
  case div => exact .ite (.error trivial) (.ok _)
  case rem | shiftLeft | shiftRight | bitAnd | bitOr | bitXor | paste => exact .error trivial
  all_goals exact .ok _

theorem BinaryOp.apply_fails (op : BinaryOp) (l r : Number) :
    FailsWith EvalError.FromOperator (op.apply l r) := by
  unfold BinaryOp.apply
  split
  · exact op.applyInt_fails _ _
  · exact op.applyFloat_fails _ _

theorem UnaryOp.apply_fails (op : UnaryOp) (v : Number) :
    FailsWith EvalError.FromOperator (op.apply v) := by
  unfold UnaryOp.apply
  split
  · exact .ok _
  · exact .error trivial
  · exact .ok _
  · exact checkedInt_fails _
  · exact .ok _
  · exact .ok _

end ConstLookup
