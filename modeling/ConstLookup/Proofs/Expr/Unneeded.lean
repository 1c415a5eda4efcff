import ConstLookup.Proofs.Expr.Enclosed
import ConstLookup.Proofs.Expr.Shadow

/-!
  An operand that is left out cannot matter (`evaluate_unneeded`). Where an expression has a
  number with the names of one resolver, it may stand in parentheses as the operand that `&&`,
  `||` or the conditional leaves out, whatever the names mean there: the value is that of the
  other operands, and no name, no division and no overflow in it fails.
-/

namespace ConstLookup

namespace Eval

/-- The cursor stands before the tokens `more`, with `depth` operands open. -/
structure Cursor.Stands (depth : Nat) (more : List Token) (c : Cursor) : Prop where
  depth : c.depth = depth
  tokens : c.rest.map Prod.fst = more

/-- The outcome is the value `w` before the tokens `more`, unless operands had to be open at a
depth of `n` and that is too deep. -/
def Gives (n : Nat) (w : Number) (depth : Nat) (more : List Token) (r : Step) : Prop :=
  ∃ d : Cursor, Within n r (.ok (some w, d)) ∧ d.Stands depth more

section Readers

variable {R R' : Resolver} {ts : List (Token × Nat)} {t : Token} {us more : List Token}
  {n depth level : Nat} {v w : Number} {c : Cursor} {read : Cursor → Step}

namespace Cursor.Stands

theorem peek?_eq (h : c.Stands depth more) : c.peek? = more.head? := by
  rw [Cursor.peek?_eq_head?, h.tokens]

theorem advance (h : c.Stands depth (t :: us)) : c.advance.Stands depth us := by
  obtain ⟨_, rest, first, later⟩ := exists_of_map_fst h.tokens
  refine ⟨h.depth, ?_⟩
  rw [Cursor.advance, first]
  exact later

theorem enter (h : c.Stands depth more) :
    ({ c with depth := c.depth + 1 } : Cursor).Stands (depth + 1) more :=
  ⟨congrArg (· + 1) h.depth, h.tokens⟩

theorem expect {m : Mark} (h : c.Stands depth (.mark m :: us)) : c.expect m = .ok c.advance := by
  refine Cursor.expect_eq_ok.mpr ⟨?_, rfl⟩
  rw [Cursor.atMark, h.peek?_eq]
  exact decide_eq_true rfl

end Cursor.Stands

namespace Gives

theorem skipped (h : Gives n w depth more (read { c with skipping := true })) :
    Gives n w depth more (skipped read c) := by
  obtain ⟨d, run, stands⟩ := h
  exact ⟨{ d with skipping := c.skipping }, run.bind_ok, stands.depth, stands.tokens⟩

theorem counted (hc : c.depth = depth)
    (h : Gives n w (depth + 1) more (read { c with depth := depth + 1 }))
    (room : depth + 1 ≤ n) : Gives n w depth more (counted read c) := by
  obtain ⟨d, run, stands⟩ := h
  subst hc
  have back : ({ d with depth := c.depth + 1 } : Cursor) = d := by rw [← stands.depth]
  refine ⟨{ d with depth := c.depth }, counted_within (x := .ok w) rfl ?_ room, rfl, stands.tokens⟩
  rw [back]
  exact run

/-- An operand begins an expression, and no operator of the expression follows. -/
theorem operation (h : Gives n w depth more (readOperand R c))
    (follows : Follows level more.head?) : Gives n w depth more (readOperation R level c) := by
  obtain ⟨d, run, stands⟩ := h
  have ends : Follows level d.peek? := stands.peek?_eq ▸ follows
  have operation : Within n (readOperation R level c) _ := operand_within (x := .ok w) run
  rw [operators_yield _ ends] at operation
  exact ⟨d, operation, stands⟩

theorem expression (hc : c.depth = depth)
    (h : Gives n w (depth + 1) more (readOperation R level { c with depth := depth + 1 }))
    (room : depth + 1 ≤ n) : Gives n w depth more (readExpression R level c) := by
  rw [readExpression_eq]
  exact counted hc h room

theorem sequence (hc : c.depth = depth)
    (h : Gives n w (depth + 1) more
      (readOperation R conditionalPrecedence { c with depth := depth + 1 }))
    (follows : Follows conditionalPrecedence more.head?) (room : depth + 1 ≤ n) :
    Gives n w depth more (readSequence R c) := by
  obtain ⟨d, run, stands⟩ := expression hc h room
  have ends : Follows conditionalPrecedence d.peek? := stands.peek?_eq ▸ follows
  rw [readSequence_eq]
  refine ⟨d, run.bind_ok.trans ?_, stands⟩
  rw [readTail_eq, ends.atMark_eq_false.1]
  exact .refl n _

/-- At the end of the tokens no operator follows. -/
theorem andStop {r : Step} (h : Gives n w depth [] r) (level : Nat) :
    Gives n w depth [] (r >>= fun p => readOperators R level p.1 p.2) := by
  obtain ⟨d, run, stands⟩ := h
  refine ⟨d, run.bind_ok.trans ?_, stands⟩
  dsimp only
  rw [readOperators_stop R (by rw [stands.peek?_eq]; rfl)]
  exact .refl n _

end Gives

/-! ## An expression in parentheses -/

/-- Tokens that have a number are read to their end. -/
theorem readSequence_of_tokens (value : tokens R ts = .ok (some v)) :
    ∃ d, readSequence R (.start ts) = .ok (some v, d) ∧ d.rest = [] := by
  unfold tokens at value
  split at value
  · cases value
  · obtain ⟨⟨u, d⟩, read, value⟩ := bind_eq_ok.mp value
    dsimp only at value
    split at value
    · cases value
    · next finish =>
      cases value
      refine ⟨d, read, ?_⟩
      rw [Cursor.peek?, Option.map_eq_none_iff, List.head?_eq_none_iff] at finish
      exact finish

section Enclosed

variable (value : tokens R ts = .ok (some v)) (plain : Unannotated (ts.map Prod.fst))
  (R' : Resolver)

include value plain

/-- In parentheses an operand that is skipped has a value. -/
theorem operand_enclosed (apart : Apart more)
    (h : c.Stands depth (.mark .leftParen :: (ts.map Prod.fst ++ .mark .rightParen :: more)))
    (skips : c.skipping = true) (room : depth + 2 * ts.length + 3 ≤ n) :
    ∃ w, Gives n w depth more (readOperand R' c) := by
  obtain ⟨last, good, finish⟩ := readSequence_of_tokens value
  have opened := h.enter
  have inner := opened.advance
  have start : Trails more (depth + 1) ts.length (.start ts)
      ({ c with depth := c.depth + 1 } : Cursor).advance :=
    ⟨inner.tokens, plain, Nat.le_refl _, inner.depth, skips⟩
  -- the tokens are whole groups, so the parenthesis before them begins no cast
  have balanced : (Cursor.start ts).Balanced last := (steps_balance R _).sequence _ _ _ good
  have noCast := afterCast_extend apart false start.tokens
  rw [balanced.afterCast_eq_none finish] at noCast
  have room' : depth + 1 + 2 * ts.length + 2 ≤ n := by omega
  obtain ⟨u, w, d, -, run, trails⟩ := readSequence_shadow apart R R' room' start _ _ good
  have tokens := trails.tokens
  rw [finish] at tokens
  have closing : d.Stands (depth + 1) (.mark .rightParen :: more) := ⟨trails.depth, tokens⟩
  have group := group_within (x := .ok w) run closing.peek?_eq
  refine ⟨w, ?_⟩
  rw [readOperand_eq]
  refine Gives.counted h.depth ⟨d.advance, ?_, closing.advance⟩ (by omega)
  rw [← h.depth, primary_group opened.peek?_eq (Option.map_eq_none_iff.mp noCast)]
  exact group

/-- Where no operator goes on with it, the operand is an operation of its own. -/
theorem operation_enclosed (apart : Apart more) (level : Nat) (follows : Follows level more.head?)
    (h : c.Stands depth (.mark .leftParen :: (ts.map Prod.fst ++ .mark .rightParen :: more)))
    (room : depth + 2 * ts.length + 4 ≤ n) :
    ∃ w, Gives n w (depth + 1) more
      (readOperation R' level { c with skipping := true, depth := depth + 1 }) := by
  have stands : ({ c with skipping := true, depth := depth + 1 } : Cursor).Stands (depth + 1) _ :=
    ⟨rfl, h.tokens⟩
  have inside : depth + 1 + 2 * ts.length + 3 ≤ n := by omega
  obtain ⟨w, operand⟩ := operand_enclosed value plain R' apart stands rfl inside
  exact ⟨w, operand.operation follows⟩

theorem skipped_expression (apart : Apart more) (level : Nat) (follows : Follows level more.head?)
    (h : c.Stands depth (.mark .leftParen :: (ts.map Prod.fst ++ .mark .rightParen :: more)))
    (room : depth + 2 * ts.length + 4 ≤ n) :
    ∃ w, Gives n w depth more (skipped (readExpression R' level) c) := by
  obtain ⟨w, operation⟩ := operation_enclosed value plain R' apart level follows h room
  exact ⟨w, (operation.expression (c := { c with skipping := true }) h.depth (by omega)).skipped⟩

theorem skipped_sequence (apart : Apart more) (follows : Follows conditionalPrecedence more.head?)
    (h : c.Stands depth (.mark .leftParen :: (ts.map Prod.fst ++ .mark .rightParen :: more)))
    (room : depth + 2 * ts.length + 4 ≤ n) :
    ∃ w, Gives n w depth more (skipped (readSequence R') c) := by
  obtain ⟨w, operation⟩ := operation_enclosed value plain R' apart _ follows h room
  exact ⟨w,
    (operation.sequence (c := { c with skipping := true }) h.depth follows (by omega)).skipped⟩

end Enclosed

/-! ## Operators with an operand that is left out -/

/-- A number begins an expression, and operators follow. -/
theorem Gives.begins {a : Nat} (fits : a < 2 ^ 127) (h : c.Stands depth (.int a :: us))
    (follows : Follows (ExprTree.literal a fits).precedence us.head?)
    (operators : Gives n w depth more
      (readOperators R conditionalPrecedence (some (.int a)) c.advance))
    (room : depth + 1 ≤ n) : Gives n w depth more (readOperation R conditionalPrecedence c) := by
  have ends : Follows (ExprTree.literal a fits).precedence c.advance.peek? :=
    h.advance.peek?_eq ▸ follows
  obtain ⟨d, run, stands⟩ := operators
  have climbs : Climbs R (.literal a fits) := climbs_literal a fits
  have number := climbs (ExprTree.fits_conditional _) ⟨h.peek?_eq, rfl⟩ ends
  rw [← h.depth] at room
  exact ⟨d, (number.mono room).trans run, stands⟩

theorem rightOperand_gives {op : BinaryOp} {a : Number} (decided : decides op (some a) = true)
    (right : ∃ w, Gives n w depth more (skipped read c)) :
    Gives n (.ofBool (op = .or)) depth more (rightOperand read op (some a) c) := by
  obtain ⟨w, d, run, stands⟩ := right
  refine ⟨d, ?_, stands⟩
  unfold rightOperand
  rw [if_pos decided]
  exact run.bind_ok

/-- The arm that the condition does not take is skipped. -/
theorem arms_gives {a yes : Number} {last : Cursor → Step}
    (first : Gives n yes depth (.mark .colon :: us) (skippedIf (!a.isTrue) read c))
    (second : ∀ d : Cursor, d.Stands depth us → ∃ no,
      Gives n no depth more (skippedIf a.isTrue last d) ∧ (if a.isTrue then yes else no) = w) :
    Gives n w depth more (arms read last (some a) c) := by
  obtain ⟨m, run, stands⟩ := first
  obtain ⟨no, ⟨d, run', stands'⟩, rfl⟩ := second m.advance stands.advance
  have whenFalse : decide (some a.isTrue = some false) = !a.isTrue := by cases a.isTrue <;> rfl
  have whenTrue : decide (some a.isTrue = some true) = a.isTrue := by cases a.isTrue <;> rfl
  refine ⟨d, ?_, stands'⟩
  unfold arms
  simp only [Option.map_some, whenFalse, whenTrue]
  refine run.bind_ok.trans ?_
  rw [stands.expect]
  refine run'.bind_ok.trans ?_
  rw [choose, ← apply_ite some]
  exact .refl n _

/-- A number is read as a sequence or an expression of its own. -/
theorem number_gives {a : Nat} (fits : a < 2 ^ 127) (h : c.Stands depth (.int a :: more))
    (follows : Follows conditionalPrecedence more.head?) (room : depth + 2 ≤ n) :
    Gives n (.int a) depth more (readSequence R c) ∧
      Gives n (.int a) depth more (readExpression R conditionalPrecedence c) := by
  have reads : c.Reads (ExprTree.literal a fits).tokens c.advance := ⟨h.peek?_eq, rfl⟩
  have ends : Follows conditionalPrecedence c.advance.peek? := h.advance.peek?_eq ▸ follows
  have number : Climbs R (.literal a fits) := climbs_literal a fits
  rw [← h.depth] at room
  exact ⟨⟨_, (number.sequence reads ends).mono room, h.advance⟩,
    ⟨_, (number.expression (ExprTree.fits_conditional _) reads ends).mono room, h.advance⟩⟩

/-! ## Whole texts -/

/-- Tokens that are read as one operation have its value. -/
theorem tokens_of_gives {l : List (Token × Nat)} (ne : l.isEmpty = false)
    (h : Gives n w 1 [] (readOperation R conditionalPrecedence { Cursor.start l with depth := 1 }))
    (room : 1 ≤ n) : Within n (tokens R l) (.ok (some w)) := by
  obtain ⟨d, run, stands⟩ := h.sequence (c := .start l) rfl .finish room
  exact tokens_of_sequence (x := .ok w) ne run stands.peek?_eq

/-- A number with a question mark behind it is the condition of the arms that follow. -/
theorem tokens_question {l : List (Token × Nat)} {a : Nat} (fits : a < 2 ^ 127)
    (h : l.map Prod.fst = .int a :: .mark .question :: us)
    (both : ∀ c : Cursor, c.Stands 1 us → Gives n w 1 []
      (arms (readSequence R) (readExpression R conditionalPrecedence) (some (.int a)) c))
    (room : 2 ≤ n) : Within n (tokens R l) (.ok (some w)) := by
  have ne : l.isEmpty = false := by cases l <;> [cases h; rfl]
  have start : ({ Cursor.start l with depth := 1 } : Cursor).Stands 1 _ := ⟨rfl, h⟩
  have question : Follows (ExprTree.literal a fits).precedence (some (.mark .question)) :=
    .question (show 0 < 13 by decide)
  refine tokens_of_gives ne (Gives.begins fits start question ?_ (by omega)) (by omega)
  rw [readOperators_question R start.advance.peek?_eq (Nat.le_refl _)]
  exact (both _ start.advance.advance).andStop _

section Whole

variable (value : tokens R ts = .ok (some v)) (plain : Unannotated (ts.map Prod.fst))
  (R' : Resolver) {l : List (Token × Nat)}

include value plain

/-- The right operand of a decided operator is left out. -/
theorem tokens_decided {a : Nat} (fits : a < 2 ^ 127) (op : BinaryOp)
    (decided : decides op (some (.int a)) = true)
    (h : l.map Prod.fst = .int a :: .mark op.mark :: .mark .leftParen ::
      (ts.map Prod.fst ++ [.mark .rightParen])) :
    Within (2 * ts.length + 5) (tokens R' l) (.ok (some (.ofBool (op = .or)))) := by
  have ne : l.isEmpty = false := by cases l <;> [cases h; rfl]
  have start : ({ Cursor.start l with depth := 1 } : Cursor).Stands 1 _ := ⟨rfl, h⟩
  have loose : op.precedence ≤ 13 := by cases op <;> decide
  refine tokens_of_gives ne (Gives.begins fits start (.operator op loose) ?_ (by omega)) (by omega)
  rw [readOperators_binary R' start.advance.peek?_eq op.binary?_mark op.precedence_pos]
  refine (rightOperand_gives decided ?_).andStop _
  exact skipped_expression value plain R' apart_nil _ .finish start.advance.advance (by omega)

/-- The second arm of the conditional is left out. -/
theorem tokens_first {a b : Nat} (fits : a < 2 ^ 127) (fits' : b < 2 ^ 127)
    (taken : (Number.int a).isTrue = true)
    (h : l.map Prod.fst = .int a :: .mark .question :: .int b :: .mark .colon ::
      .mark .leftParen :: (ts.map Prod.fst ++ [.mark .rightParen])) :
    Within (2 * ts.length + 5) (tokens R' l) (.ok (some (.int b))) := by
  refine tokens_question fits h (fun c start => ?_) (by omega)
  have room : 1 + 2 * ts.length + 4 ≤ 2 * ts.length + 5 := by omega
  have first := (number_gives (R := R') (n := 2 * ts.length + 5) fits' start .colon (by omega)).1
  refine arms_gives (by rw [taken]; exact first) fun d second => ?_
  obtain ⟨no, skips⟩ := skipped_expression value plain R' apart_nil _ .finish second room
  rw [taken]
  exact ⟨no, skips, rfl⟩

/-- The first arm of the conditional is left out. -/
theorem tokens_second {a b : Nat} (fits : a < 2 ^ 127) (fits' : b < 2 ^ 127)
    (refused : (Number.int a).isTrue = false)
    (h : l.map Prod.fst = .int a :: .mark .question :: .mark .leftParen ::
      (ts.map Prod.fst ++ [.mark .rightParen, .mark .colon, .int b])) :
    Within (2 * ts.length + 5) (tokens R' l) (.ok (some (.int b))) := by
  refine tokens_question fits h (fun c start => ?_) (by omega)
  have apart : Apart [.mark .colon, .int b] := apart_mark (by decide) rfl _
  have room : 1 + 2 * ts.length + 4 ≤ 2 * ts.length + 5 := by omega
  obtain ⟨yes, skips⟩ := skipped_sequence value plain R' apart .colon start room
  refine arms_gives (by rw [refused]; exact skips) fun d second => ?_
  rw [refused]
  exact ⟨.int b, (number_gives fits' second .finish (by omega)).2, rfl⟩

end Whole

end Readers

end Eval

section Evaluate

variable {R R' : Resolver} {e : String} {ts : List (Token × Nat)} {v : Number}

theorem evaluate_eq_tokens (lexed : Lexer.tokens (HexShield.shield e).toList = .ok ts) :
    evaluate R e = Eval.tokens R ts := by
  rw [evaluate, evaluateShielded, lexed]
  rfl

/-- The tokens of a text with an expression in parentheses. -/
theorem evaluate_enclosed (lexed : Lexer.tokens (HexShield.shield e).toList = .ok ts)
    (R : Resolver) {text : String} {front back : List Char} {fs bs : List (Token × Nat)}
    (enclosed : text.toList = front ++ '(' :: (e.toList ++ ')' :: back))
    (hf : HexShield.shieldFrom false front = front ∧ Lexer.tokens front = .ok fs)
    (hb : HexShield.shieldFrom false back = back ∧ Lexer.tokens back = .ok bs) :
    ∃ l, l.map Prod.fst = fs.map Prod.fst ++ .mark .leftParen ::
        (ts.map Prod.fst ++ .mark .rightParen :: bs.map Prod.fst) ∧
      evaluate R text = Eval.tokens R l := by
  rw [HexShield.shield, String.toList_ofList] at lexed
  obtain ⟨l, hl, same⟩ := tokens_enclosed (hf.1.symm ▸ hf.2) lexed (hb.1.symm ▸ hb.2)
  refine ⟨l, same, evaluate_eq_tokens ?_⟩
  rw [HexShield.shield, String.toList_ofList, enclosed, hl]

/-- An operand that is left out cannot matter. Let an expression without annotations have a
number with the names of some resolver. In parentheses, as the operand that a decided `&&` or `||`
or a conditional leaves out, it changes no value, whatever the names mean there. Only operands
nested too deeply remain as a failure, and not for an expression of up to 97 tokens. -/
theorem evaluate_unneeded (lexed : Lexer.tokens (HexShield.shield e).toList = .ok ts)
    (plain : Eval.Unannotated (ts.map Prod.fst)) (value : evaluate R e = .ok (some v))
    (R' : Resolver) :
    Eval.Within (2 * ts.length + 5) (evaluate R' s!"0 && ({e})") (.ok (some (.int 0))) ∧
    Eval.Within (2 * ts.length + 5) (evaluate R' s!"1 || ({e})") (.ok (some (.int 1))) ∧
    Eval.Within (2 * ts.length + 5) (evaluate R' s!"1 ? 2 : ({e})") (.ok (some (.int 2))) ∧
    Eval.Within (2 * ts.length + 5) (evaluate R' s!"0 ? ({e}) : 3") (.ok (some (.int 3))) := by
  rw [evaluate_eq_tokens lexed] at value
  have small {a : Nat} (h : a < 4) : a < 2 ^ 127 := Nat.lt_trans h (by decide)
  have nothing : HexShield.shieldFrom false [] = [] ∧ Lexer.tokens [] = .ok [] :=
    ⟨by decide +kernel, rfl⟩
  refine ⟨?_, ?_, ?_, ?_⟩
  · have text : s!"0 && ({e})".toList = "0 && ".toList ++ '(' :: (e.toList ++ ')' :: []) := by
      simp [toString]
    obtain ⟨l, same, eval⟩ := evaluate_enclosed lexed R' text ⟨by decide +kernel, rfl⟩ nothing
    rw [eval]
    exact Eval.tokens_decided value plain R' (small (by decide)) .and rfl same
  · have text : s!"1 || ({e})".toList = "1 || ".toList ++ '(' :: (e.toList ++ ')' :: []) := by
      simp [toString]
    obtain ⟨l, same, eval⟩ := evaluate_enclosed lexed R' text ⟨by decide +kernel, rfl⟩ nothing
    rw [eval]
    exact Eval.tokens_decided value plain R' (small (by decide)) .or rfl same
  · have text : s!"1 ? 2 : ({e})".toList =
        "1 ? 2 : ".toList ++ '(' :: (e.toList ++ ')' :: []) := by
      simp [toString]
    obtain ⟨l, same, eval⟩ := evaluate_enclosed lexed R' text ⟨by decide +kernel, rfl⟩ nothing
    rw [eval]
    exact Eval.tokens_first value plain R' (small (by decide)) (small (by decide)) rfl same
  · have text : s!"0 ? ({e}) : 3".toList =
        "0 ? ".toList ++ '(' :: (e.toList ++ ')' :: " : 3".toList) := by
      simp [toString]
    obtain ⟨l, same, eval⟩ := evaluate_enclosed lexed R' text ⟨by decide +kernel, rfl⟩
      ⟨by decide +kernel, rfl⟩
    rw [eval]
    exact Eval.tokens_second value plain R' (small (by decide)) (small (by decide)) rfl same

end Evaluate

/-- An expression that has a number for `A = 4` and none without the name. -/
def quotient : String := "A ? 8 / A : B"

/-- An unknown name is no fault in an operand that is left out. -/
theorem evaluate_unneeded_quotient :
    evaluate (fun _ => some (.int 4)) quotient = .ok (some (.int 2)) ∧
      evaluate (fun _ => none) quotient = .error (.unknownSymbol "A") ∧
      evaluate (fun _ => none) s!"0 && ({quotient})" = .ok (some (.int 0)) ∧
      evaluate (fun _ => none) s!"1 || ({quotient})" = .ok (some (.int 1)) ∧
      evaluate (fun _ => none) s!"1 ? 2 : ({quotient})" = .ok (some (.int 2)) ∧
      evaluate (fun _ => none) s!"0 ? ({quotient}) : 3" = .ok (some (.int 3)) := by
  have marked : HexShield.shield quotient = quotient := by decide +kernel
  have lexed : Lexer.tokens (HexShield.shield quotient).toList =
      .ok [(.ident "A", 0), (.mark .question, 2), (.int 8, 4), (.mark .slash, 6), (.ident "A", 8),
        (.mark .colon, 10), (.ident "B", 12)] := by
    rw [marked]
    rfl
  have plain : Eval.Unannotated [.ident "A", .mark .question, .int 8, .mark .slash, .ident "A",
      .mark .colon, .ident "B"] := by
    simp [Eval.Unannotated, Eval.annotations]
  have number : evaluate (fun _ => some (.int 4)) quotient = .ok (some (.int 2)) := by
    rw [evaluate_eq_tokens lexed]
    rfl
  have unknown : evaluate (fun _ => none) quotient = .error (.unknownSymbol "A") := by
    rw [evaluate_eq_tokens lexed]
    rfl
  obtain ⟨and, or, first, second⟩ := evaluate_unneeded lexed plain number fun _ => none
  have shallow : 2 * 7 + 5 ≤ Eval.maxDepth := by decide
  exact ⟨number, unknown, and.eq shallow, or.eq shallow, first.eq shallow, second.eq shallow⟩

end ConstLookup
