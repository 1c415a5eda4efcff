import ConstLookup.Proofs.Expr.Failure
import ConstLookup.Proofs.Expr.Progress

/-!
  Evaluation is monotone in the known names. A resolver `R'` that knows what `R` knows gives
  the same answer as `R`, value or error, unless the run with `R` stops at a name; and then `R`
  does not know that name (`evaluate_lockstep`). The two runs stay in lockstep through all six
  readers (`steps_lockstep`, by induction on the fuel).
-/

namespace ConstLookup

/-- `R'` gives every name that `R` knows the same number. -/
def Resolver.Le (R R' : Resolver) : Prop := ∀ name v, R name = some v → R' name = some v

theorem Resolver.Le.refl (R : Resolver) : R.Le R := fun _ _ h => h

theorem Resolver.Le.trans {R S T : Resolver} (h : R.Le S) (h' : S.Le T) : R.Le T :=
  fun name v e => h' name v (h name v e)

theorem Resolver.Le.antisymm {R S : Resolver} (h : R.Le S) (h' : S.Le R) : R = S := by
  funext name
  cases hR : R name with
  | some v => exact (h name v hR).symm
  | none =>
    cases hS : S name with
    | none => rfl
    | some v => rw [h' name v hS] at hR; cases hR

/-- The outcome is not an unknown name. -/
abbrev Known {α : Type} (r : Except EvalError α) : Prop :=
  FailsWith (fun e => ∀ x, e ≠ .unknownSymbol x) r

/-- `r'` is the outcome `r`, unless `r` is a name unknown to `R`. -/
def Lockstep (R : Resolver) {α : Type} (r r' : Except EvalError α) : Prop :=
  (∃ x, r = .error (.unknownSymbol x) ∧ R x = none) ∨ (Known r ∧ r' = r)

namespace Lockstep

variable {R : Resolver} {α β : Type}

theorem same {r : Except EvalError α} (h : Known r) : Lockstep R r r := .inr ⟨h, rfl⟩

theorem error {e : EvalError} (h : ∀ x, e ≠ .unknownSymbol x) :
    Lockstep R (.error e : Except EvalError α) (.error e) := same (.error h)

theorem ok (a : α) : Lockstep R (.ok a) (.ok a) := same (.ok a)

theorem bind {r r' : Except EvalError α} {f f' : α → Except EvalError β}
    (h : Lockstep R r r') (hf : ∀ a, Lockstep R (f a) (f' a)) :
    Lockstep R (r >>= f) (r' >>= f') := by
  rcases h with ⟨x, rfl, hx⟩ | ⟨hk, rfl⟩
  · exact .inl ⟨x, rfl, hx⟩
  · match r' with
    | .error e => exact error (hk e rfl)
    | .ok a => exact hf a

end Lockstep

namespace Eval

/-! ## What never asks for a name -/

theorem known_enter (c : Cursor) : Known c.enter := .ite (.ok _) (.error nofun)

theorem known_expect (m : Mark) (c : Cursor) : Known (c.expect m) :=
  .ite (.ok _) (.error nofun)

theorem known_skipGroup (c : Cursor) : Known (skipGroup c) := by
  refine (known_expect _ c).bind fun d => ?_
  split
  · exact .ok _
  · exact .error nofun

theorem known_skipArguments (c : Cursor) : Known (skipArguments c) :=
  .ite (known_skipGroup c) (.ok c)

theorem known_of_operator {r : Except EvalError Number} (h : FailsWith EvalError.FromOperator r) :
    Known r := by
  refine h.mono fun e he x => ?_
  rintro rfl
  exact he

theorem known_guarded {r : Except EvalError Number} (h : Known r) (skipping : Bool) :
    Known (guarded skipping r) := by
  unfold guarded
  split
  · exact .ok _
  · exact .ite (.ok _) h

theorem known_combine (op : BinaryOp) (skipping : Bool) (l r : Option Number) :
    Known (combine op skipping l r) := by
  unfold combine
  split
  · exact (known_guarded (known_of_operator (op.apply_fails _ _)) skipping).map _
  · exact .ok _
  · exact .ok _

theorem known_wordToken (v : Nat) : Known (Lexer.wordToken v) := .ite (.ok _) (.error nofun)

theorem known_numberToken (offset : Nat) (cs : List Char) :
    Known (Lexer.numberToken offset cs) := by
  unfold Lexer.numberToken
  dsimp only
  split
  · split
    · exact .ok _
    · exact .error nofun
  · split
    · exact known_wordToken _
    · exact .error nofun

theorem known_hexLiteral (offset : Nat) (cs : List Char) :
    Known (Lexer.hexLiteral offset cs) := by
  unfold Lexer.hexLiteral
  dsimp only
  split
  · exact .error nofun
  · split
    · exact .error nofun
    · exact (known_wordToken _).bind fun _ => .ok _

theorem known_malformed {α : Type} (offset : Nat) (fault : SyntaxFault) :
    Known (.error (.malformed offset fault) : Except EvalError α) := .error nofun

/-- An escape sequence has its value, or is malformed. -/
theorem known_escape (value : Option Int) (offset : Nat) (fault : SyntaxFault) :
    Known (match value with
      | some v => .ok v
      | none => .error (.malformed offset fault)) := by
  cases value with
  | none => exact known_malformed offset fault
  | some v => exact .ok v

theorem known_characterValue (offset : Nat) (cs : List Char) :
    Known (Lexer.characterValue offset cs) := by
  unfold Lexer.characterValue
  dsimp only
  split <;> first | exact .ok _ | exact known_escape _ _ _ | exact known_malformed _ _

theorem known_nextToken (offset : Nat) (c : Char) (cs : List Char) :
    Known (Lexer.nextToken offset c cs) := by
  unfold Lexer.nextToken
  split
  · exact known_hexLiteral offset _
  · split
    · exact (known_numberToken offset _).map _
    · split
      · unfold Lexer.characterLiteral
        split
        · exact .error nofun
        · exact (known_characterValue offset _).map _
      · split
        · exact .error nofun
        · split
          · exact .ok _
          · split
            · exact .ok _
            · exact .error nofun

theorem known_tokensFrom (steps offset : Nat) (cs : List Char) :
    Known (Lexer.tokensFrom steps offset cs) := by
  induction steps generalizing offset cs with
  | zero => exact .ok _
  | succ steps ih =>
    cases cs with
    | nil => exact .ok _
    | cons c cs =>
      rw [Lexer.tokensFrom]
      split
      · exact ih _ _
      · exact (known_nextToken offset c cs).bind fun p => (ih _ _).bind fun _ => .ok _

/-! ## Readers -/

section Bodies

variable {R R' : Resolver} {inner inner' tight tight' : Cursor → Step}

theorem name_lockstep (h : R.Le R') (word : String) (c : Cursor) :
    Lockstep R (name R word c) (name R' word c) := by
  unfold name
  split
  · exact (Lockstep.same (known_skipGroup c)).bind fun d => .ok _
  · split
    · exact (Lockstep.same (known_skipArguments c)).bind fun d => .ok _
    · split
      · exact .error nofun
      · cases hR : R word with
        | some v => rw [h word v hR]; exact .ok _
        | none => exact .inl ⟨word, rfl, hR⟩

theorem skipped_lockstep (h : ∀ c, Lockstep R (inner c) (inner' c)) (c : Cursor) :
    Lockstep R (skipped inner c) (skipped inner' c) := (h _).bind fun _ => .ok _

theorem skippedIf_lockstep (h : ∀ c, Lockstep R (inner c) (inner' c)) (skip : Bool)
    (c : Cursor) : Lockstep R (skippedIf skip inner c) (skippedIf skip inner' c) := by
  unfold skippedIf
  split
  · exact skipped_lockstep h c
  · exact h c

theorem counted_lockstep (h : ∀ c, Lockstep R (inner c) (inner' c)) (c : Cursor) :
    Lockstep R (counted inner c) (counted inner' c) :=
  (Lockstep.same (known_enter c)).bind fun d => (h d).bind fun _ => .ok _

theorem arms_lockstep (hi : ∀ c, Lockstep R (inner c) (inner' c))
    (ht : ∀ c, Lockstep R (tight c) (tight' c)) (v : Option Number) (c : Cursor) :
    Lockstep R (arms inner tight v c) (arms inner' tight' v c) := by
  refine (skippedIf_lockstep hi _ c).bind fun p => ?_
  refine (Lockstep.same (known_expect _ p.2)).bind fun d => ?_
  exact (skippedIf_lockstep ht _ d).bind fun _ => .ok _

theorem rightOperand_lockstep (h : ∀ c, Lockstep R (tight c) (tight' c)) (op : BinaryOp)
    (v : Option Number) (c : Cursor) :
    Lockstep R (rightOperand tight op v c) (rightOperand tight' op v c) := by
  unfold rightOperand
  split
  · exact (skipped_lockstep h c).bind fun _ => .ok _
  · exact (h c).bind fun p => (Lockstep.same (known_combine op _ v p.1)).bind fun _ => .ok _

theorem unaryOperand_lockstep (h : ∀ c, Lockstep R (tight c) (tight' c)) (op : UnaryOp)
    (c : Cursor) : Lockstep R (unaryOperand tight op c) (unaryOperand tight' op c) := by
  refine (h c).bind fun p => ?_
  match p with
  | (none, d) => exact .ok _
  | (some v, d) => exact (Lockstep.same (known_guarded (known_of_operator (op.apply_fails v)) _)).bind fun _ => .ok _

theorem group_lockstep (h : ∀ c, Lockstep R (inner c) (inner' c)) (c : Cursor) :
    Lockstep R (group inner c) (group inner' c) :=
  (h c).bind fun p => (Lockstep.same (known_expect _ p.2)).bind fun _ => .ok _

theorem primary_lockstep (h : R.Le R') (hi : ∀ c, Lockstep R (inner c) (inner' c))
    (ht : ∀ c, Lockstep R (tight c) (tight' c)) (c : Cursor) :
    Lockstep R (primary R inner tight c) (primary R' inner' tight' c) := by
  unfold primary
  split
  · exact .error nofun
  · exact .ok _
  · exact .ok _
  · exact name_lockstep h _ _
  · split
    · exact ht _
    · exact group_lockstep hi _
  · split
    · exact unaryOperand_lockstep ht _ _
    · exact .error nofun

end Bodies

/-- The runs of all readers with `R` and with `R'` agree. -/
structure LockstepAt (R R' : Resolver) (fuel : Nat) : Prop where
  sequence : ∀ c, Lockstep R (sequence R fuel c) (sequence R' fuel c)
  sequenceTail : ∀ v c, Lockstep R (sequenceTail R fuel v c) (sequenceTail R' fuel v c)
  expression : ∀ level c, Lockstep R (expression R fuel level c) (expression R' fuel level c)
  operands : ∀ v c, Lockstep R (operands R fuel v c) (operands R' fuel v c)
  operators : ∀ level v c,
    Lockstep R (operators R fuel level v c) (operators R' fuel level v c)
  operand : ∀ c, Lockstep R (operand R fuel c) (operand R' fuel c)

theorem steps_lockstep {R R' : Resolver} (h : R.Le R') (fuel : Nat) : LockstepAt R R' fuel := by
  induction fuel with
  | zero => constructor <;> intros <;> exact .error nofun
  | succ fuel ih =>
    constructor
    case sequence =>
      intro c
      rw [Eval.sequence, Eval.sequence]
      exact (ih.expression _ c).bind fun p => ih.sequenceTail p.1 p.2
    case sequenceTail =>
      intro v c
      rw [Eval.sequenceTail, Eval.sequenceTail]
      split
      · exact (ih.expression _ _).bind fun p => ih.sequenceTail p.1 p.2
      · exact .ok _
    case expression =>
      intro level c
      rw [Eval.expression, Eval.expression]
      refine counted_lockstep (fun d => ?_) c
      refine (ih.operand d).bind fun p => ?_
      exact (ih.operands p.1 p.2).bind fun q => ih.operators level q.1 q.2
    case operands =>
      intro v c
      rw [Eval.operands, Eval.operands]
      split
      · exact (ih.operand c).bind fun p => ih.operands p.1 p.2
      · exact .ok _
    case operators =>
      intro level v c
      rw [Eval.operators, Eval.operators]
      split
      · split
        · exact ih.operators level v _
        · exact .ok _
      · split
        · refine (arms_lockstep ih.sequence (ih.expression _) v _).bind fun p => ?_
          exact ih.operators level p.1 p.2
        · exact .ok _
      · split
        · exact .ok _
        · split
          · exact .ok _
          · refine (rightOperand_lockstep (ih.expression _) _ v _).bind fun p => ?_
            exact ih.operators level p.1 p.2
      · exact .ok _
    case operand =>
      intro c
      rw [Eval.operand, Eval.operand]
      exact counted_lockstep (primary_lockstep h ih.sequence (ih.expression _)) c

theorem tokens_lockstep {R R' : Resolver} (h : R.Le R') (ts : List (Token × Nat)) :
    Lockstep R (tokens R ts) (tokens R' ts) := by
  unfold tokens
  split
  · exact .ok _
  · refine ((steps_lockstep h _).sequence _).bind fun p => ?_
    dsimp only
    split
    · exact .error nofun
    · exact .ok _

end Eval

theorem evaluateShielded_lockstep {R R' : Resolver} (h : R.Le R') (text : String) :
    Lockstep R (evaluateShielded R text) (evaluateShielded R' text) :=
  (Lockstep.same (Eval.known_tokensFrom _ _ _)).bind fun ts => Eval.tokens_lockstep h ts

/-- With more names known the outcome of an expression stays, be it a value, no value or an error,
unless the run stopped at a name; and that name was not known. -/
theorem evaluateShielded_monotone {R R' : Resolver} (h : R.Le R') (text : String) :
    ((∀ x, evaluateShielded R text ≠ .error (.unknownSymbol x)) →
      evaluateShielded R' text = evaluateShielded R text) ∧
    ∀ x, evaluateShielded R text = .error (.unknownSymbol x) → R x = none := by
  rcases evaluateShielded_lockstep h text with ⟨y, stopped, unknown⟩ | ⟨known, same⟩
  · refine ⟨fun settled => absurd stopped (settled y), fun x stop => ?_⟩
    rw [stopped] at stop
    cases stop
    exact unknown
  · exact ⟨fun _ => same, fun x stop => absurd rfl (known _ stop x)⟩

/-- A resolver that knows one name. -/
def knowsA (name : String) : Option Number := if name = "A" then some (.int 4) else none

/-- An arm that is not taken may hold an unknown name; in the arm that is taken it stops the
run. -/
theorem evaluateShielded_monotone_arm :
    Resolver.Le knowsA (fun _ => some (.int 4)) ∧
      evaluateShielded knowsA "A ? A / 2 : B" = .ok (some (.int 2)) ∧
      evaluateShielded (fun _ => some (.int 4)) "A ? A / 2 : B" = .ok (some (.int 2)) ∧
      evaluateShielded knowsA "A - 4 ? A : B" = .error (.unknownSymbol "B") ∧
      knowsA "B" = none := by
  have le : Resolver.Le knowsA (fun _ => some (.int 4)) := by
    intro name v known
    unfold knowsA at known
    split at known
    · exact known
    · cases known
  have taken : evaluateShielded knowsA "A ? A / 2 : B" = .ok (some (.int 2)) := by
    have lexed : Lexer.tokens "A ? A / 2 : B".toList = .ok [(.ident "A", 0), (.mark .question, 2),
        (.ident "A", 4), (.mark .slash, 6), (.int 2, 8), (.mark .colon, 10), (.ident "B", 12)] :=
      rfl
    rw [evaluateShielded, lexed]
    rfl
  have stopped : evaluateShielded knowsA "A - 4 ? A : B" = .error (.unknownSymbol "B") := by
    have lexed : Lexer.tokens "A - 4 ? A : B".toList = .ok [(.ident "A", 0), (.mark .minus, 2),
        (.int 4, 4), (.mark .question, 6), (.ident "A", 8), (.mark .colon, 10), (.ident "B", 12)] :=
      rfl
    rw [evaluateShielded, lexed]
    rfl
  have settled : ∀ x, evaluateShielded knowsA "A ? A / 2 : B" ≠ .error (.unknownSymbol x) := by
    intro x stop
    rw [taken] at stop
    cases stop
  exact ⟨le, taken, ((evaluateShielded_monotone le _).1 settled).trans taken, stopped,
    (evaluateShielded_monotone le _).2 "B" stopped⟩

theorem evaluate_lockstep {R R' : Resolver} (h : R.Le R') (text : String) :
    Lockstep R (evaluate R text) (evaluate R' text) :=
  evaluateShielded_lockstep h _

end ConstLookup
