import ConstLookup.Proofs.Expr.Nesting
import ConstLookup.Proofs.Expr.Skipping

/-!
  Reading the tokens of a tree evaluates the tree (`tokens_eval`), for every tree and every
  resolver, unless operands are nested too deeply.

  The readers evaluate while they read, so what they do is compared with `ExprTree.evalIn`. The
  induction over the tree is about an expression without its own count (`Climbs`): the operand
  and the operators that bind as in the tree are read, and then the operators that follow. The
  left operand of a binary operator is such a start of its expression, and the right operand is
  an expression of its own.
-/

namespace ConstLookup

namespace ExprTree

/-! ## Shape -/

/-- The counted readers that the tokens of a tree open at most inside its expression. -/
def need (t : ExprTree) : Nat := 4 * t.height + 1

/-- The outermost operator of the tree is read by an expression at `level`. -/
def Fits (level : Nat) : ExprTree → Prop
  | binary op _ _ => level < op.precedence
  | t => level ≤ t.precedence

theorem fits_of_lt {level : Nat} {t : ExprTree} (h : level < t.precedence) : t.Fits level := by
  cases t with
  | binary op l r => exact h
  | literal v fits => exact Nat.le_of_lt h
  | name n => exact Nat.le_of_lt h
  | unary op t => exact Nat.le_of_lt h
  | conditional c a b => exact Nat.le_of_lt h

theorem Fits.le {level : Nat} {t : ExprTree} (h : t.Fits level) : level ≤ t.precedence := by
  cases t with
  | binary op l r => exact Nat.le_of_lt h
  | literal v fits => exact h
  | name n => exact h
  | unary op t => exact h
  | conditional c a b => exact h

theorem fits_conditional (t : ExprTree) : t.Fits conditionalPrecedence := by
  cases t with
  | binary op l r => exact op.precedence_pos
  | literal v fits => exact Nat.zero_le _
  | name n => exact Nat.zero_le _
  | unary op t => exact Nat.zero_le _
  | conditional c a b => exact Nat.zero_le _

/-- No binary operator binds just as tight as a unary one. -/
theorem fits_unary {t : ExprTree} (h : unaryPrecedence ≤ t.precedence) :
    t.Fits unaryPrecedence := by
  cases t with
  | binary op l r =>
    refine Nat.lt_of_le_of_ne h ?_
    cases op <;> decide
  | literal v fits => exact h
  | name n => exact h
  | unary op t => exact h
  | conditional c a b => exact h

/-- A tree does not begin with a type, so parentheses before it open no cast. -/
theorem tokens_head (t : ExprTree) :
    ∃ first more, t.tokens = first :: more ∧ ∀ w, first = .ident w → Eval.isTypeWord w = false := by
  have enclosed {ts : List Token} (needed : Bool) (us : List Token)
      (h : ∃ first more, ts = first :: more ∧ ∀ w, first = .ident w → Eval.isTypeWord w = false) :
      ∃ first more, enclosed needed ts ++ us = first :: more ∧
        ∀ w, first = .ident w → Eval.isTypeWord w = false := by
    obtain ⟨first, more, rfl, hw⟩ := h
    cases needed with
    | false => exact ⟨first, more ++ us, rfl, hw⟩
    | true => exact ⟨_, _, rfl, nofun⟩
  induction t with
  | literal v fits => exact ⟨_, _, rfl, nofun⟩
  | name n =>
    refine ⟨_, _, rfl, ?_⟩
    rintro w ⟨⟩
    exact n.type
  | unary op t ih => exact ⟨_, _, rfl, nofun⟩
  | binary op l r ihl ihr => exact enclosed _ _ ihl
  | conditional c a b ihc iha ihb =>
    rw [tokens, List.append_assoc]
    exact enclosed _ _ ihc

end ExprTree

namespace Eval

/-! ## Cursors on known tokens -/

/-- The tokens between `c` and `d` are `ts`. -/
def Cursor.Reads (c : Cursor) : List Token → Cursor → Prop
  | [], d => d = c
  | t :: ts, d => c.peek? = some t ∧ c.advance.Reads ts d

section Reads

variable {c d e : Cursor} {ts us : List Token}

theorem Cursor.reads_append :
    c.Reads (ts ++ us) e ↔ ∃ d, c.Reads ts d ∧ d.Reads us e := by
  induction ts generalizing c with
  | nil => simp [Cursor.Reads]
  | cons t ts ih => simp only [List.cons_append, Cursor.Reads, ih, and_assoc, exists_and_left]

theorem Cursor.Reads.skipping_eq (h : c.Reads ts d) : d.skipping = c.skipping := by
  induction ts generalizing c with
  | nil => rw [h]
  | cons t ts ih => rw [ih h.2]; rfl

theorem Cursor.Reads.depth_eq (h : c.Reads ts d) : d.depth = c.depth := by
  induction ts generalizing c with
  | nil => rw [h]
  | cons t ts ih => rw [ih h.2]; rfl

theorem Cursor.Reads.withDepth (h : c.Reads ts d) (depth : Nat) :
    ({ c with depth := depth } : Cursor).Reads ts { d with depth := depth } := by
  induction ts generalizing c with
  | nil => rw [h]; rfl
  | cons t ts ih => exact ⟨h.1, ih h.2⟩

theorem Cursor.Reads.withSkipping (h : c.Reads ts d) (skipping : Bool) :
    ({ c with skipping := skipping } : Cursor).Reads ts { d with skipping := skipping } := by
  induction ts generalizing c with
  | nil => rw [h]; rfl
  | cons t ts ih => exact ⟨h.1, ih h.2⟩

theorem Cursor.reads_rest (c : Cursor) :
    c.Reads (c.rest.map Prod.fst) { c with rest := [] } := by
  obtain ⟨rest, finish, depth, skipping⟩ := c
  induction rest with
  | nil => rfl
  | cons t rest ih => exact ⟨rfl, ih⟩

end Reads

/-- What may come after an expression that takes only operators tighter than `level`. -/
inductive Follows (level : Nat) : Option Token → Prop
  | finish : Follows level none
  | rightParen : Follows level (some (.mark .rightParen))
  | colon : Follows level (some (.mark .colon))
  | question (h : conditionalPrecedence < level) : Follows level (some (.mark .question))
  | operator (op : BinaryOp) (h : op.precedence ≤ level) : Follows level (some (.mark op.mark))

namespace Follows

variable {level : Nat} {t : Option Token}

theorem mono {higher : Nat} (h : Follows level t) (le : level ≤ higher) : Follows higher t := by
  cases h with
  | finish => exact .finish
  | rightParen => exact .rightParen
  | colon => exact .colon
  | question h => exact .question (Nat.lt_of_lt_of_le h le)
  | operator op h => exact .operator op (Nat.le_trans h le)

theorem stops (h : Follows level t) : stops level t = true := by
  cases h with
  | finish => rfl
  | rightParen => rfl
  | colon => rfl
  | question h => exact decide_eq_true h
  | operator op h => cases op <;> exact decide_eq_true h

theorem atMark_eq_false {c : Cursor} (h : Follows level c.peek?) :
    c.atMark .comma = false ∧ c.atMark .leftParen = false := by
  unfold Cursor.atMark
  generalize c.peek? = t at h ⊢
  cases h with
  | operator op h => cases op <;> decide
  | _ => decide

end Follows

/-! ## The grammar -/

/-- An expression without its own count. -/
def readOperation (resolve : Resolver) (level : Nat) (c : Cursor) : Step :=
  readOperand resolve c >>= fun p =>
    readOperands resolve p.1 p.2 >>= fun q => readOperators resolve level q.1 q.2

/-- Where the tokens of `t` are read as operand and operators of an expression, that has the value
of `t` so far and goes on with the operators that follow. -/
def Climbs (resolve : Resolver) (t : ExprTree) : Prop :=
  ∀ ⦃level : Nat⦄ ⦃c d : Cursor⦄, t.Fits level → c.Reads t.tokens d →
    Follows t.precedence d.peek? →
    Within (c.depth + t.need) (readOperation resolve level c)
      (t.evalIn resolve c.skipping >>= fun v => readOperators resolve level (some v) d)

section Climbs

variable {resolve : Resolver} {level : Nat} {c d : Cursor}

/-- An operand with a value begins an expression. -/
theorem operand_within {n : Nat} {x : Except EvalError Number}
    (h : Within n (readOperand resolve c) (yields x d)) :
    Within n (readOperation resolve level c)
      (x >>= fun v => readOperators resolve level (some v) d) := by
  have none (v : Number) : readOperands resolve (some v) d = .ok (some v, d) := by
    rw [readOperands_eq]
    rfl
  refine h.andThen fun v => ?_
  dsimp only
  rw [none]
  exact .refl n _

/-- No operator of the expression follows. -/
theorem operators_yield (x : Except EvalError Number) (h : Follows level d.peek?) :
    (x >>= fun v => readOperators resolve level (some v) d) = yields x d := by
  simp only [readOperators_stop resolve h.stops]
  rfl

/-- An expression without its own count, and no comma, is a sequence. -/
theorem sequence_of_operation {n : Nat} {x : Except EvalError Number} (hd : d.depth = c.depth)
    (h : Within n (readOperation resolve conditionalPrecedence { c with depth := c.depth + 1 })
      (yields x { d with depth := c.depth + 1 })) (comma : d.atMark .comma = false)
    (room : c.depth + 1 ≤ n) : Within n (readSequence resolve c) (yields x d) := by
  rw [readSequence_eq, readExpression_eq]
  refine (counted_within hd h room).andThen fun v => ?_
  rw [readTail_eq, comma]
  exact .refl _ _

/-- The tokens of a sequence have its value. -/
theorem tokens_of_sequence {n : Nat} {x : Except EvalError Number} {ts : List (Token × Nat)}
    (ne : ts.isEmpty = false) (h : Within n (readSequence resolve (.start ts)) (yields x d))
    (finish : d.peek? = none) : Within n (tokens resolve ts) (x.map some) := by
  have e : x.map some = (x >>= fun v => .ok (some v)) := by cases x <;> rfl
  unfold tokens
  rw [ne, e]
  refine Within.andThen h fun v => ?_
  dsimp only
  rw [finish]
  exact .refl _ _

theorem Climbs.expression {t : ExprTree} (ht : Climbs resolve t) (fits : t.Fits level)
    (h : c.Reads t.tokens d) (follows : Follows level d.peek?) :
    Within (c.depth + 1 + t.need) (readExpression resolve level c)
      (yields (t.evalIn resolve c.skipping) d) := by
  rw [readExpression_eq]
  refine counted_within h.depth_eq ?_ (Nat.le_add_right _ _)
  have inner := ht fits (h.withDepth (c.depth + 1)) (follows.mono fits.le)
  rwa [operators_yield (d := { d with depth := c.depth + 1 }) _ follows] at inner

theorem Climbs.sequence {t : ExprTree} (ht : Climbs resolve t) (h : c.Reads t.tokens d)
    (follows : Follows conditionalPrecedence d.peek?) :
    Within (c.depth + 1 + t.need) (readSequence resolve c)
      (yields (t.evalIn resolve c.skipping) d) := by
  rw [readSequence_eq]
  refine (ht.expression t.fits_conditional h follows).andThen fun v => ?_
  rw [readTail_eq, follows.atMark_eq_false.1]
  exact .refl _ _

theorem afterCast_false {first : Token} (h : c.peek? = some first)
    (hw : ∀ w, first = .ident w → isTypeWord w = false) : afterCast false c.rest = none := by
  match hr : c.rest with
  | [] => rfl
  | (.ident w, o) :: rest =>
    have : first = .ident w := by
      rw [Cursor.peek?, hr] at h
      exact (Option.some.inj h).symm
    rw [afterCast, hw w this]
    rfl
  | (.mark m, o) :: rest => cases m <;> rfl
  | (.int v, o) :: rest => rfl
  | (.float v, o) :: rest => rfl

/-- What stands in parentheses is an operand. -/
theorem Climbs.primary {t : ExprTree} (ht : Climbs resolve t) {tight : Cursor → Step}
    (h : c.Reads (.mark .leftParen :: t.tokens ++ [.mark .rightParen]) d) :
    Within (c.depth + 1 + t.need) (primary resolve (readSequence resolve) tight c)
      (yields (t.evalIn resolve c.skipping) d) := by
  obtain ⟨open_, inner⟩ := h
  obtain ⟨e, he, close, rfl⟩ := Cursor.reads_append.mp inner
  have noCast : afterCast false c.advance.rest = none := by
    obtain ⟨first, more, hts, hw⟩ := t.tokens_head
    rw [hts] at he
    exact afterCast_false he.1 hw
  unfold Eval.primary
  rw [open_]
  dsimp only
  rw [noCast]
  exact group_within (ht.sequence he (close ▸ .rightParen)) close

theorem Climbs.operand {t : ExprTree} (ht : Climbs resolve t)
    (h : c.Reads (.mark .leftParen :: t.tokens ++ [.mark .rightParen]) d) :
    Within (c.depth + 2 + t.need) (readOperand resolve c)
      (yields (t.evalIn resolve c.skipping) d) := by
  rw [readOperand_eq]
  exact counted_within h.depth_eq (ht.primary (h.withDepth (c.depth + 1))) (by omega)

/-- How the tokens of a tree in parentheses, where they are needed, begin an expression. -/
theorem Climbs.enclosed {t : ExprTree} (ht : Climbs resolve t) (level : Nat) {needed : Bool}
    (h : c.Reads (ExprTree.enclosed needed t.tokens) d)
    (bare : needed = false → t.Fits level ∧ Follows t.precedence d.peek?) :
    Within (c.depth + 2 + t.need) (readOperation resolve level c)
      (t.evalIn resolve c.skipping >>= fun v => readOperators resolve level (some v) d) := by
  cases needed with
  | false =>
    obtain ⟨fits, follows⟩ := bare rfl
    exact (ht fits h follows).mono (by omega)
  | true => exact operand_within (ht.operand h)

theorem Climbs.enclosedExpression {t : ExprTree} (ht : Climbs resolve t) (level : Nat)
    {needed : Bool} (h : c.Reads (ExprTree.enclosed needed t.tokens) d)
    (bare : needed = false → t.Fits level) (follows : Follows level d.peek?) :
    Within (c.depth + 3 + t.need) (readExpression resolve level c)
      (yields (t.evalIn resolve c.skipping) d) := by
  rw [readExpression_eq]
  refine counted_within h.depth_eq ?_ (by omega)
  have inner := ht.enclosed level (h.withDepth (c.depth + 1)) fun hn =>
    ⟨bare hn, follows.mono (bare hn).le⟩
  rw [operators_yield (d := { d with depth := c.depth + 1 }) _ follows] at inner
  exact inner.mono (by dsimp only; omega)

/-- A tree without a binary operator at its root is one operand. -/
theorem climbs_of_primary {t : ExprTree}
    (h : ∀ ⦃c d : Cursor⦄, c.Reads t.tokens d → Follows t.precedence d.peek? →
      Within (c.depth + 4 * t.height)
        (Eval.primary resolve (readSequence resolve) (readExpression resolve unaryPrecedence) c)
        (yields (t.evalIn resolve c.skipping) d)) : Climbs resolve t := by
  intro level c d _ hr follows
  refine operand_within ?_
  rw [readOperand_eq]
  refine counted_within hr.depth_eq ?_ (by unfold ExprTree.need; omega)
  exact (h (hr.withDepth (c.depth + 1)) follows).mono (by unfold ExprTree.need; dsimp only; omega)

theorem climbs_literal (v : Nat) (fits : v < 2 ^ 127) : Climbs resolve (.literal v fits) := by
  refine climbs_of_primary ?_
  rintro c d ⟨hp, rfl⟩ -
  unfold Eval.primary
  rw [hp]
  exact .refl _ _

theorem climbs_name (n : ConstantName) : Climbs resolve (.name n) := by
  refine climbs_of_primary ?_
  rintro c d ⟨hp, rfl⟩ follows
  have noArguments : c.advance.atMark .leftParen = false := follows.atMark_eq_false.2
  have same : Eval.name resolve n.text c.advance =
      yields ((ExprTree.name n).evalIn resolve c.advance.skipping) c.advance := by
    unfold Eval.name ExprTree.evalIn skipArguments
    rw [n.annotation, noArguments]
    cases c.advance.skipping with
    | true => rfl
    | false =>
      simp only [n.size.1, n.size.2]
      cases resolve n.text <;> rfl
  unfold Eval.primary
  rw [hp]
  dsimp only
  rw [same]
  exact .refl _ _

theorem climbs_unary (op : UnaryOp) {t : ExprTree} (ht : Climbs resolve t) :
    Climbs resolve (.unary op t) := by
  refine climbs_of_primary ?_
  intro c d h follows
  have hs := h.skipping_eq
  obtain ⟨hp, inner⟩ := h
  have operand := ht.enclosedExpression unaryPrecedence inner
    (fun bare => ExprTree.fits_unary (by simpa using bare)) follows
  have e : Eval.primary resolve (readSequence resolve) (readExpression resolve unaryPrecedence) c =
      unaryOperand (readExpression resolve unaryPrecedence) op c.advance := by
    unfold Eval.primary
    rw [hp]
    cases op <;> rfl
  have body := unaryOperand_within operand op
  rw [hs] at body
  rw [e]
  exact body.mono (by dsimp only [Cursor.advance, ExprTree.need, ExprTree.height]; omega)

/-- The operand of a reader that has been counted is read with or without skipping. -/
theorem Climbs.rightOperand {t : ExprTree} (ht : Climbs resolve t) (level : Nat) {needed : Bool}
    (h : c.Reads (ExprTree.enclosed needed t.tokens) d)
    (bare : needed = false → t.Fits level) (follows : Follows level d.peek?) :
    Evaluates (c.depth + 3 + t.need) (readExpression resolve level)
      (fun s => t.evalIn resolve s) c d where
  skipping := h.skipping_eq
  run s := ht.enclosedExpression level (h.withSkipping s) bare follows

theorem climbs_binary (op : BinaryOp) {l r : ExprTree} (hl : Climbs resolve l)
    (hr : Climbs resolve r) : Climbs resolve (.binary op l r) := by
  intro level c d fits h follows
  obtain ⟨m, left, hp, right⟩ := Cursor.reads_append.mp h
  have hs : m.advance.skipping = c.skipping := left.skipping_eq
  have hdepth : m.advance.depth = c.depth := left.depth_eq
  have first := hl.enclosed level left fun bare => by
    have le : op.precedence ≤ l.precedence := by simpa using bare
    exact ⟨ExprTree.fits_of_lt (Nat.lt_of_lt_of_le fits le), hp ▸ .operator op le⟩
  have second := hr.rightOperand op.precedence right
    (fun bare => ExprTree.fits_of_lt (by simpa using bare)) follows
  have bound : c.depth + 2 + l.need ≤ c.depth + (ExprTree.binary op l r).need ∧
      c.depth + 3 + r.need ≤ c.depth + (ExprTree.binary op l r).need := by
    simp only [ExprTree.need, ExprTree.height]
    omega
  refine (first.mono bound.1).trans ?_
  rw [ExprTree.evalIn, bind_assoc]
  refine .bind_left _ fun a => ?_
  rw [readOperators_binary resolve hp op.binary?_mark fits]
  refine Within.andThen ?_ fun v => .refl _ _
  rw [← hs]
  exact (rightOperand_within second op a).mono (by omega)

theorem climbs_conditional {t yes no : ExprTree} (ht : Climbs resolve t)
    (hyes : Climbs resolve yes) (hno : Climbs resolve no) :
    Climbs resolve (.conditional t yes no) := by
  intro level c d fits h follows
  rw [ExprTree.tokens, List.append_assoc] at h
  obtain ⟨m, condition, question, h⟩ := Cursor.reads_append.mp h
  obtain ⟨e, middle, colon, last⟩ := Cursor.reads_append.mp h
  have hs : m.advance.skipping = c.skipping := condition.skipping_eq
  have hdepth : m.advance.depth = c.depth := condition.depth_eq
  have hdepth' : e.advance.depth = m.advance.depth := middle.depth_eq
  have first := ht.enclosed level condition fun bare => by
    have lt : conditionalPrecedence < t.precedence := by simpa using bare
    exact ⟨ExprTree.fits_of_lt (Nat.lt_of_le_of_lt fits lt), question ▸ .question lt⟩
  have second : Evaluates (m.advance.depth + 1 + yes.need) (readSequence resolve)
      (fun s => yes.evalIn resolve s) m.advance e :=
    ⟨middle.skipping_eq, fun s => hyes.sequence (middle.withSkipping s) (colon ▸ .colon)⟩
  have third : Evaluates (e.advance.depth + 1 + no.need)
      (readExpression resolve conditionalPrecedence) (fun s => no.evalIn resolve s) e.advance d :=
    ⟨last.skipping_eq,
      fun s => hno.expression no.fits_conditional (last.withSkipping s) follows⟩
  have bound : c.depth + 2 + t.need ≤ c.depth + (ExprTree.conditional t yes no).need ∧
      c.depth + 1 + yes.need ≤ c.depth + (ExprTree.conditional t yes no).need ∧
      c.depth + 1 + no.need ≤ c.depth + (ExprTree.conditional t yes no).need := by
    simp only [ExprTree.need, ExprTree.height]
    omega
  refine (first.mono bound.1).trans ?_
  rw [ExprTree.evalIn, bind_assoc]
  refine .bind_left _ fun v => ?_
  rw [readOperators_question resolve question fits]
  refine Within.andThen ?_ fun v => .refl _ _
  rw [← hs]
  exact arms_within (second.mono (by omega)) colon (third.mono (by omega)) v

/-- The tokens of every tree are read as the tree says. -/
theorem climbs (resolve : Resolver) (t : ExprTree) : Climbs resolve t := by
  induction t with
  | literal v fits => exact climbs_literal v fits
  | name n => exact climbs_name n
  | unary op t ih => exact climbs_unary op ih
  | binary op l r ihl ihr => exact climbs_binary op ihl ihr
  | conditional c a b ihc iha ihb => exact climbs_conditional ihc iha ihb

end Climbs

/-- Tokens of a tree, with any offsets, have the value of the tree. -/
theorem tokens_eval (resolve : Resolver) (t : ExprTree) {ts : List (Token × Nat)}
    (h : ts.map Prod.fst = t.tokens) :
    Within (4 * t.height + 2) (tokens resolve ts) ((t.eval resolve).map some) := by
  have ne : ts.isEmpty = false := by
    obtain ⟨first, more, ht, -⟩ := t.tokens_head
    cases ts with
    | nil => rw [ht] at h; cases h
    | cons p ts => rfl
  have reads := (Cursor.start ts).reads_rest
  rw [show (Cursor.start ts).rest = ts from rfl, h] at reads
  have read := (climbs resolve t).sequence reads .finish
  rw [show (Cursor.start ts).skipping = false from rfl, t.evalIn_false] at read
  refine tokens_of_sequence ne (read.mono ?_) rfl
  simp only [Cursor.start, ExprTree.need]
  omega

end Eval

end ConstLookup
