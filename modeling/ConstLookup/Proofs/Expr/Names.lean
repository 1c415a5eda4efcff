import ConstLookup.Proofs.Expr.Fuel

/-!
  The names that an expression asks for. Every reader looks up only words that stand in the
  tokens it is given, so two resolvers that agree on the words of a text give it the same outcome
  (`evaluate_congr`), be it a value, no value or an error.
-/

namespace ConstLookup

namespace Eval

/-- The words among tokens. -/
def words (ts : List (Token × Nat)) : List String :=
  ts.filterMap fun t => match t.1 with
    | .ident word => some word
    | _ => none

theorem mem_words {word : String} {ts : List (Token × Nat)} :
    word ∈ words ts ↔ ∃ offset, (.ident word, offset) ∈ ts := by
  rw [words, List.mem_filterMap]
  constructor
  · rintro ⟨⟨t, offset⟩, mem, same⟩
    cases t with
    | ident w =>
      obtain rfl := Option.some.inj same
      exact ⟨offset, mem⟩
    | int | float | mark => cases same
  · rintro ⟨offset, mem⟩
    exact ⟨_, mem, rfl⟩

/-- The resolvers agree on the words that are left at the cursor. -/
def AgreeAt (R R' : Resolver) (c : Cursor) : Prop := ∀ word ∈ words c.rest, R word = R' word

section Agree

variable {R R' : Resolver} {c d : Cursor}

theorem AgreeAt.of_suffix (h : AgreeAt R R' c) (further : d.rest <:+ c.rest) : AgreeAt R R' d := by
  intro word mem
  obtain ⟨offset, mem⟩ := mem_words.mp mem
  exact h word (mem_words.mpr ⟨offset, further.subset mem⟩)

theorem AgreeAt.word {word : String} (h : AgreeAt R R' c)
    (next : c.peek? = some (.ident word)) : R word = R' word := by
  obtain ⟨offset, rest⟩ := Cursor.rest_of_peek? next
  exact h word (mem_words.mpr ⟨offset, rest ▸ List.mem_cons_self⟩)

theorem AgreeAt.advance (h : AgreeAt R R' c) : AgreeAt R R' c.advance :=
  h.of_suffix c.reaches_advance.rest

end Agree

/-- The readers give the same from every cursor where the resolvers agree. -/
structure SameAt (R R' : Resolver) (fuel : Nat) : Prop where
  sequence : ∀ c, AgreeAt R R' c → sequence R fuel c = sequence R' fuel c
  sequenceTail : ∀ v c, AgreeAt R R' c → sequenceTail R fuel v c = sequenceTail R' fuel v c
  expression : ∀ level c, AgreeAt R R' c → expression R fuel level c = expression R' fuel level c
  operands : ∀ v c, AgreeAt R R' c → operands R fuel v c = operands R' fuel v c
  operators : ∀ level v c, AgreeAt R R' c →
    operators R fuel level v c = operators R' fuel level v c
  operand : ∀ c, AgreeAt R R' c → operand R fuel c = operand R' fuel c

theorem steps_same (R R' : Resolver) (fuel : Nat) : SameAt R R' fuel := by
  induction fuel with
  | zero => constructor <;> intros <;> rfl
  | succ fuel ih =>
    have progress := steps_progress R' fuel
    constructor
    case sequence =>
      intro c h
      rw [Eval.sequence, Eval.sequence, ih.expression _ c h]
      refine (progress.expression _ c).keeps.bind_congr_of_reaches fun v d hd => ?_
      exact ih.sequenceTail v d (h.of_suffix hd.rest)
    case sequenceTail =>
      intro v c h
      rw [Eval.sequenceTail, Eval.sequenceTail, ih.expression _ c.advance h.advance]
      split
      · refine (progress.expression _ c.advance).keeps.bind_congr_of_reaches fun w d hd => ?_
        exact ih.sequenceTail w d (h.advance.of_suffix hd.rest)
      · rfl
    case expression =>
      intro level c h
      rw [Eval.expression, Eval.expression]
      refine counted_congr fun d hd => ?_
      have hd : AgreeAt R R' d := h.of_suffix (hd ▸ List.suffix_refl _)
      rw [ih.operand d hd]
      refine (progress.operand d).keeps.bind_congr_of_reaches fun v e he => ?_
      have he := hd.of_suffix he.rest
      dsimp only
      rw [ih.operands v e he]
      refine (progress.operands v e).bind_congr_of_reaches fun w f hf => ?_
      exact ih.operators level w f (he.of_suffix hf.rest)
    case operands =>
      intro v c h
      rw [Eval.operands, Eval.operands, ih.operand c h]
      split
      · refine (progress.operand c).keeps.bind_congr_of_reaches fun w d hd => ?_
        exact ih.operands w d (h.of_suffix hd.rest)
      · rfl
    case operators =>
      intro level v c h
      rw [Eval.operators, Eval.operators]
      split
      · rw [ih.operators level v c.advance h.advance]
      · split
        · rw [arms_congr (fun d => (progress.sequence d).keeps)
            (fun d hd => ih.sequence d (h.advance.of_suffix hd))
            (fun d hd => ih.expression _ d (h.advance.of_suffix hd))]
          refine (arms_keeps (fun d => (progress.sequence d).keeps)
            (fun d => (progress.expression _ d).keeps) v _).bind_congr_of_reaches fun w d hd => ?_
          exact ih.operators level w d (h.advance.of_suffix hd.rest)
        · rfl
      · split
        · rfl
        · next op _ =>
          split
          · rfl
          · rw [rightOperand_congr
              (fun d hd => ih.expression op.precedence d (h.advance.of_suffix hd))]
            refine (rightOperand_keeps (fun d => (progress.expression _ d).keeps) op v
              _).bind_congr_of_reaches fun w d hd => ?_
            exact ih.operators level w d (h.advance.of_suffix hd.rest)
      · rfl
    case operand =>
      intro c h
      rw [Eval.operand, Eval.operand]
      refine counted_congr fun d hd => ?_
      have hd : AgreeAt R R' d := h.of_suffix (hd ▸ List.suffix_refl _)
      exact primary_congr (fun word next => hd.word next)
        (fun e he _ => ih.sequence e (hd.of_suffix he))
        fun e he _ => ih.expression _ e (hd.of_suffix he)

theorem tokens_congr {R R' : Resolver} {ts : List (Token × Nat)}
    (h : ∀ word ∈ words ts, R word = R' word) : tokens R ts = tokens R' ts := by
  rw [tokens, tokens, (steps_same R R' _).sequence (Cursor.start ts) h]

end Eval

/-- The words of an expression; a text that cannot be split into tokens has none. -/
def exprNames (text : String) : List String :=
  match Lexer.tokens (HexShield.shield text).toList with
  | .ok ts => Eval.words ts
  | .error _ => []

/-- The outcome of an expression depends on the values of its words only. -/
theorem evaluate_congr {R R' : Resolver} {text : String}
    (h : ∀ name ∈ exprNames text, R name = R' name) : evaluate R text = evaluate R' text := by
  have read (S : Resolver) : evaluate S text =
      Lexer.tokens (HexShield.shield text).toList >>= Eval.tokens S := rfl
  rw [read, read]
  unfold exprNames at h
  cases lexed : Lexer.tokens (HexShield.shield text).toList with
  | error e =>
    have stop (S : Resolver) : (Except.error e >>= Eval.tokens S) = .error e := rfl
    rw [stop, stop]
  | ok ts =>
    rw [lexed] at h
    have step (S : Resolver) : (Except.ok ts >>= Eval.tokens S) = Eval.tokens S ts := rfl
    rw [step, step, Eval.tokens_congr h]

end ConstLookup
