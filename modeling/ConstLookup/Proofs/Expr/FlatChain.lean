import ConstLookup.Proofs.Expr.Failure
import ConstLookup.Proofs.Expr.Fuel

/-!
  Flat chains: literals joined by binary operators of one precedence, with integer suffixes behind
  them, and such chains separated by commas. The right operand of an operator ends at the next
  operator, so no more than three operands are open at once however long the chain is, and its
  evaluation never reports too deep a nesting (`evaluate_flat`).
-/

namespace ConstLookup

open Eval

/-- An integer or a float. -/
def Token.IsLiteral : Token → Prop
  | .int _ | .float _ => True
  | .ident _ | .mark _ => False

/-- How a chain goes on behind a literal: it ends, or an integer suffix, an operator of the
precedence `level` with a literal, or a comma with a chain follows. -/
inductive Continues : Nat → List Token → Prop
  | finish {level : Nat} : Continues level []
  | suffix {level : Nat} {word : String} {ts : List Token} (isSuffix : isIntSuffix word = true)
      (rest : Continues level ts) : Continues level (.ident word :: ts)
  | operator {op : BinaryOp} {m : Mark} {t : Token} {ts : List Token}
      (isOperator : m.binary? = some op) (literal : t.IsLiteral)
      (rest : Continues op.precedence ts) : Continues op.precedence (.mark m :: t :: ts)
  | comma {level next : Nat} {t : Token} {ts : List Token} (literal : t.IsLiteral)
      (rest : Continues next ts) : Continues level (.mark .comma :: t :: ts)

/-- Chains of literals, separated by commas. -/
def FlatChain (ts : List Token) : Prop :=
  ∃ (first : Token) (level : Nat) (rest : List Token),
    ts = first :: rest ∧ first.IsLiteral ∧ Continues level rest

namespace Eval

/-- The tokens that are not read yet. -/
def Cursor.ahead (c : Cursor) : List Token := c.rest.map Prod.fst

/-- The outcome is a value with tokens ahead that satisfy `P`, or a failure other than too deep a
nesting. -/
inductive Arrives (P : List Token → Prop) : Step → Prop
  | ok {v : Option Number} {d : Cursor} (h : P d.ahead) : Arrives P (.ok (v, d))
  | error {e : EvalError} (h : e ≠ .tooDeep) : Arrives P (.error e)

section Arrives

variable {P Q : List Token → Prop} {c d : Cursor} {r : Step}

theorem Arrives.bind {f : Option Number × Cursor → Step} (h : Arrives P r)
    (hf : ∀ v d, P d.ahead → Arrives Q (f (v, d))) : Arrives Q (r >>= f) := by
  cases h with
  | @ok v d h => exact hf v d h
  | error h => exact .error h

theorem Arrives.bind_keeps {f : Option Number × Cursor → Step} (h : Arrives P r) (hk : Keeps c r)
    (hf : ∀ v d, c.Reaches d → P d.ahead → Arrives Q (f (v, d))) : Arrives Q (r >>= f) := by
  cases h with
  | @ok v d h => exact hf v d (hk v d rfl) h
  | error h => exact .error h

theorem Arrives.mono (h : Arrives P r) (hPQ : ∀ ts, P ts → Q ts) : Arrives Q r := by
  cases h with
  | ok h => exact .ok (hPQ _ h)
  | error h => exact .error h

end Arrives

section Reading

variable {c : Cursor} {t : Token} {ts : List Token}

theorem Cursor.ahead_cons (h : c.ahead = t :: ts) : c.peek? = some t ∧ c.advance.ahead = ts := by
  obtain ⟨rest, finish, depth, skipping⟩ := c
  cases rest with
  | nil => cases h
  | cons p rest =>
    obtain ⟨first, behind⟩ := List.cons.inj h
    exact ⟨congrArg some first, behind⟩

theorem Cursor.ahead_nil (h : c.ahead = []) : c.peek? = none := by
  rw [Cursor.peek?, List.map_eq_nil_iff.mp h]
  rfl

end Reading

section Chains

variable {resolve : Resolver} {P : List Token → Prop} {level : Nat} {c : Cursor} {t : Token}
  {ts : List Token}

/-- What a reader leaves ahead does not change when the operand is closed. -/
theorem counted_arrives {read : Cursor → Step} (room : c.depth < maxDepth)
    (h : Arrives P (read { c with depth := c.depth + 1 })) : Arrives P (counted read c) := by
  rw [counted, Cursor.enter, if_pos room]
  exact h.bind fun _ _ hd => .ok hd

theorem skipped_arrives {read : Cursor → Step} (h : Arrives P (read { c with skipping := true })) :
    Arrives P (skipped read c) :=
  h.bind fun _ _ hd => .ok hd

theorem primary_literal (resolve : Resolver) (inner tight : Cursor → Step) (h : c.peek? = some t)
    (literal : t.IsLiteral) : ∃ v, primary resolve inner tight c = .ok (some v, c.advance) := by
  unfold primary
  rw [h]
  cases t with
  | int v => exact ⟨.int v, rfl⟩
  | float v => exact ⟨.float v, rfl⟩
  | ident _ => exact literal.elim
  | mark _ => exact literal.elim

theorem readOperand_literal (resolve : Resolver) (h : c.peek? = some t) (literal : t.IsLiteral)
    (room : c.depth < maxDepth) : ∃ v, readOperand resolve c = .ok (some v, c.advance) := by
  have peek : ({ c with depth := c.depth + 1 } : Cursor).peek? = some t := h
  obtain ⟨v, read⟩ := primary_literal resolve (readSequence resolve)
    (readExpression resolve unaryPrecedence) peek literal
  refine ⟨v, ?_⟩
  rw [readOperand_eq, counted, Cursor.enter, if_pos room]
  change (primary resolve _ _ _ >>= _) = _
  rw [read]
  rfl

/-- An expression that begins with a literal goes on with its operators. -/
theorem expression_arrives (h : c.ahead = t :: ts) (literal : t.IsLiteral)
    (room : c.depth + 2 ≤ maxDepth)
    (operators : ∀ v d, d.ahead = ts → d.depth = c.depth + 1 →
      Arrives P (readOperators resolve level v d)) :
    Arrives P (readExpression resolve level c) := by
  obtain ⟨first, behind⟩ := Cursor.ahead_cons h
  let opened : Cursor := { c with depth := c.depth + 1 }
  have peek : opened.peek? = some t := first
  have below : opened.depth < maxDepth := room
  obtain ⟨v, read⟩ := readOperand_literal resolve peek literal below
  rw [readExpression_eq]
  refine counted_arrives (Nat.lt_of_succ_lt room) ?_
  change Arrives P (readOperand resolve opened >>= _)
  rw [read]
  change Arrives P (readOperands resolve (some v) opened.advance >>= _)
  rw [readOperands_eq]
  exact operators (some v) opened.advance behind rfl

theorem guarded_fails {x : Except EvalError Number} (h : FailsWith EvalError.FromOperator x)
    (skipping : Bool) : FailsWith EvalError.FromOperator (guarded skipping x) := by
  cases x with
  | ok v => exact .ok v
  | error e => exact .ite (.ok _) h

theorem combine_fails (op : BinaryOp) (skipping : Bool) (l r : Option Number) :
    FailsWith EvalError.FromOperator (combine op skipping l r) := by
  match l, r with
  | some l, some r => exact (guarded_fails (op.apply_fails l r) skipping).map some
  | some l, none => exact .ok (some l)
  | none, some r => exact .ok (some r)
  | none, none => exact .ok none

theorem rightOperand_arrives {right : Cursor → Step}
    (h : ∀ skipping, Arrives P (right { c with skipping := skipping })) (op : BinaryOp)
    (v : Option Number) : Arrives P (rightOperand right op v c) := by
  unfold rightOperand
  split
  · exact (skipped_arrives (h true)).bind fun _ _ hd => .ok hd
  · have read : Arrives P (right c) := h c.skipping
    refine read.bind fun w d hd => ?_
    have fails := combine_fails op d.skipping v w
    dsimp only
    generalize combine op d.skipping v w = x at fails ⊢
    cases x with
    | ok w => exact .ok hd
    | error e =>
      refine .error ?_
      rintro rfl
      exact fails _ rfl

/-- An operator does not belong to the right operand of another one of its precedence. -/
theorem stops_operator {op : BinaryOp} {m : Mark} (h : m.binary? = some op) :
    stops op.precedence (some (.mark m)) = true := by
  unfold stops
  split
  · next e => cases e
  · next e => cases e; cases h
  · next e =>
    cases e
    rw [h]
    exact decide_eq_true (Nat.le_refl _)
  · rfl

/-- The operators of a right operand end at the next operator of the chain. -/
theorem operators_arrive (h : Continues level c.ahead) (v : Option Number) :
    Arrives (Continues level) (readOperators resolve level v c) := by
  generalize ahead : c.ahead = ts at h
  induction h generalizing c with
  | finish =>
    rw [readOperators_stop resolve (by rw [Cursor.ahead_nil ahead]; rfl)]
    exact .ok (ahead ▸ .finish)
  | suffix isSuffix rest ih =>
    obtain ⟨peek, behind⟩ := Cursor.ahead_cons ahead
    rw [readOperators_suffix resolve peek isSuffix]
    exact ih behind
  | operator isOperator literal rest ih =>
    obtain ⟨peek, -⟩ := Cursor.ahead_cons ahead
    rw [readOperators_stop resolve (by rw [peek]; exact stops_operator isOperator)]
    exact .ok (ahead ▸ .operator isOperator literal rest)
  | comma literal rest ih =>
    obtain ⟨peek, -⟩ := Cursor.ahead_cons ahead
    rw [readOperators_stop resolve (by rw [peek]; rfl)]
    exact .ok (ahead ▸ .comma literal rest)

/-- A chain goes on, at some precedence. -/
def Remains (ts : List Token) : Prop := ∃ level, Continues level ts

/-- The operators of a chain follow each other at the depth of its first literal. -/
theorem chain_arrives (room : c.depth + 2 ≤ maxDepth) (h : Remains c.ahead) (v : Option Number) :
    Arrives Remains (readOperators resolve conditionalPrecedence v c) := by
  induction len : c.rest.length using Nat.strongRecOn generalizing c v with
  | ind n ih =>
    obtain ⟨level, h⟩ := h
    generalize ahead : c.ahead = ts at h
    cases h with
    | finish =>
      rw [readOperators_stop resolve (by rw [Cursor.ahead_nil ahead]; rfl)]
      exact .ok (ahead ▸ ⟨level, .finish⟩)
    | suffix isSuffix rest =>
      obtain ⟨peek, behind⟩ := Cursor.ahead_cons ahead
      have taken := Cursor.length_advance_lt peek
      have remains : Remains c.advance.ahead := behind ▸ ⟨level, rest⟩
      rw [readOperators_suffix resolve peek isSuffix]
      exact ih c.advance.rest.length (by omega) (c := c.advance) room remains v rfl
    | @operator op m t ts isOperator literal rest =>
      obtain ⟨peek, behind⟩ := Cursor.ahead_cons ahead
      have taken := Cursor.length_advance_lt peek
      rw [readOperators_binary resolve peek isOperator op.precedence_pos]
      have right : Arrives Remains
          (rightOperand (readExpression resolve op.precedence) op v c.advance) := by
        refine rightOperand_arrives (fun skipping => ?_) op v
        refine expression_arrives behind literal room fun w d tokens _ => ?_
        exact (operators_arrive (tokens ▸ rest) w).mono fun _ h => ⟨_, h⟩
      refine right.bind_keeps (rightOperand_keeps
        (fun d => (readExpression_advances resolve d _).keeps) op v _) fun w d reach remains => ?_
      have shorter := reach.length_le
      have depth : d.depth = c.depth := reach.depth
      exact ih d.rest.length (by omega) (depth ▸ room) remains w rfl
    | comma literal rest =>
      obtain ⟨peek, -⟩ := Cursor.ahead_cons ahead
      rw [readOperators_stop resolve (by rw [peek]; rfl)]
      exact .ok (ahead ▸ ⟨level, .comma literal rest⟩)

/-- A literal with a chain behind it is an expression. -/
theorem link_arrives (h : c.ahead = t :: ts) (literal : t.IsLiteral) (rest : Remains ts)
    (room : c.depth + 3 ≤ maxDepth) :
    Arrives Remains (readExpression resolve conditionalPrecedence c) :=
  expression_arrives h literal (by omega) fun v _ tokens depth =>
    chain_arrives (by omega) (tokens ▸ rest) v

/-- Behind a comma stands a literal with a chain. -/
theorem remains_comma (h : Remains c.ahead) (comma : c.atMark .comma = true) :
    ∃ t ts, c.advance.ahead = t :: ts ∧ t.IsLiteral ∧ Remains ts := by
  obtain ⟨level, h⟩ := h
  have peek := Cursor.peek?_of_atMark comma
  generalize ahead : c.ahead = ts at h
  cases h with
  | finish =>
    rw [Cursor.ahead_nil ahead] at peek
    cases peek
  | suffix isSuffix rest =>
    rw [(Cursor.ahead_cons ahead).1] at peek
    cases peek
  | operator isOperator literal rest =>
    rw [(Cursor.ahead_cons ahead).1] at peek
    cases peek
    cases isOperator
  | comma literal rest => exact ⟨_, _, (Cursor.ahead_cons ahead).2, literal, _, rest⟩

theorem tail_arrives (room : c.depth + 3 ≤ maxDepth) (h : Remains c.ahead) (v : Option Number) :
    Arrives Remains (readTail resolve v c) := by
  induction len : c.rest.length using Nat.strongRecOn generalizing c v with
  | ind n ih =>
    rw [readTail_eq]
    split
    · next comma =>
      have taken := Cursor.length_advance_lt (Cursor.peek?_of_atMark comma)
      obtain ⟨t, ts, behind, literal, rest⟩ := remains_comma h comma
      refine (link_arrives behind literal rest room).bind_keeps
        (readExpression_advances resolve _ _).keeps fun w d reach remains => ?_
      have shorter := reach.length_le
      have depth : d.depth = c.depth := reach.depth
      exact ih d.rest.length (by omega) (depth ▸ room) remains w rfl
    · exact .ok h

end Chains

/-- The tokens of a flat chain are not too deep. -/
theorem tokens_flat (resolve : Resolver) {ts : List (Token × Nat)}
    (h : FlatChain (ts.map Prod.fst)) : tokens resolve ts ≠ .error .tooDeep := by
  obtain ⟨first, level, rest, ahead, literal, continues⟩ := h
  have ahead : (Cursor.start ts).ahead = first :: rest := ahead
  have room : (Cursor.start ts).depth + 3 ≤ maxDepth := show 0 + 3 ≤ maxDepth by decide
  have read : Arrives Remains (readSequence resolve (.start ts)) := by
    rw [readSequence_eq]
    refine (link_arrives ahead literal ⟨level, continues⟩ room).bind_keeps
      (readExpression_advances resolve _ _).keeps fun v d reach remains => ?_
    have depth : d.depth = (Cursor.start ts).depth := reach.depth
    exact tail_arrives (depth ▸ room) remains v
  intro deep
  unfold tokens at deep
  split at deep
  · cases deep
  · have steps : sequence resolve (fuelFor ts.length) (.start ts) =
        readSequence resolve (.start ts) := rfl
    rw [steps] at deep
    generalize readSequence resolve (.start ts) = r at read deep
    cases read with
    | ok remains =>
      simp only [bind, Except.bind] at deep
      split at deep
      · cases deep
      · cases deep
    | error other => exact other (Except.error.inj deep)

end Eval

/-- No flat chain is too deep, whatever its length. -/
theorem evaluate_flat (resolve : Resolver) {text : String} {ts : List (Token × Nat)}
    (split : Lexer.tokens (HexShield.shield text).toList = .ok ts)
    (h : FlatChain (ts.map Prod.fst)) : evaluate resolve text ≠ .error .tooDeep := by
  rw [evaluate, evaluateShielded, split]
  exact Eval.tokens_flat resolve h

end ConstLookup
