import ConstLookup.Proofs.Expr.Failure
import ConstLookup.Proofs.Expr.Tree

/-!
  Evaluation of a tree with or without skipping. The readers evaluate while they read, also the
  operands that their operator leaves out: there names and failures are zero
  (`ExprTree.evalIn`). Such an operand never fails (`evalIn_true`), so on whole trees this is
  `ExprTree.eval` (`evalIn_false`). No tree fails for its depth (`eval_ne_tooDeep`).
-/

namespace ConstLookup.ExprTree

/-- The value of a tree for a reader. While skipping, names and failures are zero. -/
def evalIn (resolve : Resolver) (skipping : Bool) : ExprTree → Except EvalError Number
  | literal v _ => .ok (.int v)
  | name n =>
    if skipping then .ok (.int 0)
    else
      match resolve n.text with
      | some v => .ok v
      | none => .error (.unknownSymbol n.text)
  | unary op t => do Eval.guarded skipping (op.apply (← t.evalIn resolve skipping))
  | binary op l r => do
    let a ← l.evalIn resolve skipping
    if Eval.decides op (some a) then do
      let _ ← r.evalIn resolve true
      return .ofBool (op = .or)
    else Eval.guarded skipping (op.apply a (← r.evalIn resolve skipping))
  | conditional c a b => do
    let v ← c.evalIn resolve skipping
    let yes ← a.evalIn resolve (skipping || !v.isTrue)
    let no ← b.evalIn resolve (skipping || v.isTrue)
    return if v.isTrue then yes else no

theorem guarded_true (r : Except EvalError Number) : ∃ v, Eval.guarded true r = .ok v := by
  cases r with
  | ok v => exact ⟨v, rfl⟩
  | error e => exact ⟨.int 0, rfl⟩

theorem guarded_false (r : Except EvalError Number) : Eval.guarded false r = r := by
  cases r <;> rfl

/-- An operand that is skipped never fails. -/
theorem evalIn_true (resolve : Resolver) (t : ExprTree) : ∃ v, t.evalIn resolve true = .ok v := by
  induction t with
  | literal v fits => exact ⟨_, rfl⟩
  | name n => exact ⟨_, rfl⟩
  | unary op t ih =>
    obtain ⟨v, hv⟩ := ih
    rw [evalIn, hv]
    exact guarded_true _
  | binary op l r ihl ihr =>
    obtain ⟨a, ha⟩ := ihl
    obtain ⟨b, hb⟩ := ihr
    rw [evalIn, ha, hb]
    by_cases h : Eval.decides op (some a) = true
    · exact ⟨.ofBool (op = .or), by simp only [bind, Except.bind, h]; rfl⟩
    · obtain ⟨v, hv⟩ := guarded_true (op.apply a b)
      exact ⟨v, by simp only [bind, Except.bind, h]; exact hv⟩
  | conditional c a b ihc iha ihb =>
    obtain ⟨v, hv⟩ := ihc
    obtain ⟨yes, hyes⟩ := iha
    obtain ⟨no, hno⟩ := ihb
    rw [evalIn, hv]
    simp only [bind, Except.bind, Bool.true_or, hyes, hno]
    exact ⟨_, rfl⟩

/-- Without skipping a reader evaluates as the tree says. -/
theorem evalIn_false (resolve : Resolver) (t : ExprTree) :
    t.evalIn resolve false = t.eval resolve := by
  induction t with
  | literal v fits => rfl
  | name n => rfl
  | unary op t ih =>
    rw [evalIn, eval, ih]
    exact congrArg _ (funext fun v => guarded_false _)
  | binary op l r ihl ihr =>
    rw [evalIn, eval, ihl, ihr]
    refine congrArg _ (funext fun a => ?_)
    obtain ⟨w, hw⟩ := evalIn_true resolve r
    simp only [hw, guarded_false]
    cases op <;> cases h : a.isTrue <;> simp [Eval.decides, h] <;> rfl
  | conditional c a b ihc iha ihb =>
    rw [evalIn, eval, ihc]
    refine congrArg _ (funext fun v => ?_)
    obtain ⟨yes, hyes⟩ := evalIn_true resolve a
    obtain ⟨no, hno⟩ := evalIn_true resolve b
    cases h : v.isTrue
    · simp only [Bool.false_or, Bool.not_false, hyes, ihb]
      cases b.eval resolve <;> rfl
    · simp only [Bool.false_or, Bool.not_true, hno, iha]
      cases a.eval resolve <;> rfl

/-- Evaluation of a tree never fails for its depth. -/
theorem eval_ne_tooDeep (resolve : Resolver) (t : ExprTree) :
    FailsWith (· ≠ .tooDeep) (t.eval resolve) := by
  have operator {r : Except EvalError Number} (h : FailsWith EvalError.FromOperator r) :
      FailsWith (· ≠ .tooDeep) r := h.mono fun e he => by rintro rfl; exact he
  induction t with
  | literal v fits => exact .ok _
  | name n =>
    rw [eval]
    split
    · exact .ok _
    · exact .error nofun
  | unary op t ih => exact ih.bind fun v => operator (op.apply_fails v)
  | binary op l r ihl ihr =>
    refine ihl.bind fun a => ?_
    split
    · exact .ok _
    · exact .ok _
    · exact ihr.bind fun b => operator (BinaryOp.apply_fails _ a b)
  | conditional c a b ihc iha ihb => exact ihc.bind fun v => .ite iha ihb

end ConstLookup.ExprTree
