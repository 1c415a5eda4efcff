import ConstLookup.Proofs.Expr.Progress

/-!
  The fuel of the readers is bookkeeping. Between two tokens at most a sequence, an expression
  and an operand are opened, so three steps a token suffice: with at least that much fuel the
  answer does not depend on the fuel (`steps_enough`). `readSequence` and its companions are the
  readers with enough fuel; they satisfy the equations of the grammar without any fuel
  (`readSequence_eq` to `readOperand_eq`), and proofs about the grammar start from those.
-/

namespace ConstLookup.Eval

/-! ## Congruence: a body only calls its readers further on -/

theorem Keeps.bind_congr_of_reaches {c : Cursor} {r : Step}
    {f g : Option Number × Cursor → Step} (h : Keeps c r)
    (hf : ∀ v d, c.Reaches d → f (v, d) = g (v, d)) : (r >>= f) = (r >>= g) := by
  match r, h with
  | .error e, _ => rfl
  | .ok (v, d), h => exact hf v d (h v d rfl)

theorem Keeps.bind_congr {c : Cursor} {r : Step} {f g : Option Number × Cursor → Step}
    (h : Keeps c r) (hf : ∀ v d, d.rest.length ≤ c.rest.length → f (v, d) = g (v, d)) :
    (r >>= f) = (r >>= g) :=
  h.bind_congr_of_reaches fun v d hd => hf v d hd.length_le

theorem Advances.bind_congr {c : Cursor} {r : Step} {f g : Option Number × Cursor → Step}
    (h : Advances c r) (hf : ∀ v d, d.rest.length < c.rest.length → f (v, d) = g (v, d)) :
    (r >>= f) = (r >>= g) := by
  match r, h with
  | .error e, _ => rfl
  | .ok (v, d), h => exact hf v d (h v d rfl).2

theorem skippedIf_congr {f g : Cursor → Step} {ts : List (Token × Nat)}
    (h : ∀ d : Cursor, d.rest <:+ ts → f d = g d) (skip : Bool) {c : Cursor}
    (hc : c.rest <:+ ts) : skippedIf skip f c = skippedIf skip g c := by
  unfold skippedIf skipped
  rw [h c hc, h { c with skipping := true } hc]

theorem counted_congr {f g : Cursor → Step} {c : Cursor}
    (h : ∀ d : Cursor, d.rest = c.rest → f d = g d) : counted f c = counted g c := by
  unfold counted Cursor.enter
  split
  · have e := h { c with depth := c.depth + 1 } rfl
    simp only [bind, Except.bind, e]
  · rfl

section Bodies

variable {inner inner' tight tight' : Cursor → Step}

theorem arms_congr {c : Cursor} (hk : ∀ d, Keeps d (inner' d))
    (hi : ∀ d : Cursor, d.rest <:+ c.rest → inner d = inner' d)
    (ht : ∀ d : Cursor, d.rest <:+ c.rest → tight d = tight' d)
    (v : Option Number) : arms inner tight v c = arms inner' tight' v c := by
  unfold arms
  dsimp only
  rw [skippedIf_congr hi _ (List.suffix_refl _)]
  refine (skippedIf_keeps hk _ c).bind_congr_of_reaches fun yes d hd => ?_
  unfold Cursor.expect
  dsimp only
  split
  · have hd' : d.advance.rest <:+ c.rest := d.reaches_advance.rest.trans hd.rest
    exact congrArg (fun r => r >>= fun p => pure (choose v yes p.1, p.2))
      (skippedIf_congr ht _ hd')
  · rfl

theorem rightOperand_congr {c : Cursor}
    (ht : ∀ d : Cursor, d.rest <:+ c.rest → tight d = tight' d) (op : BinaryOp)
    (v : Option Number) : rightOperand tight op v c = rightOperand tight' op v c := by
  unfold rightOperand skipped
  rw [ht c (List.suffix_refl _), ht { c with skipping := true } (List.suffix_refl _)]

theorem name_congr {resolve resolve' : Resolver} {word : String}
    (h : resolve word = resolve' word) (c : Cursor) :
    name resolve word c = name resolve' word c := by
  unfold name
  rw [h]

theorem primary_congr {resolve resolve' : Resolver} {c : Cursor}
    (hn : ∀ word, c.peek? = some (.ident word) → resolve word = resolve' word)
    (hi : ∀ d : Cursor, d.rest <:+ c.rest → d.rest.length < c.rest.length → inner d = inner' d)
    (ht : ∀ d : Cursor, d.rest <:+ c.rest → d.rest.length < c.rest.length → tight d = tight' d) :
    primary resolve inner tight c = primary resolve' inner' tight' c := by
  have further := c.reaches_advance.rest
  unfold primary
  split
  · rfl
  · rfl
  · rfl
  · next word h => exact name_congr (hn word h) _
  · next h =>
    have hl := Cursor.length_advance_lt h
    split
    · next rest hrest =>
      have hs := afterCast_suffix hrest
      exact ht _ (hs.trans further) (Nat.lt_of_le_of_lt hs.length_le hl)
    · unfold group
      rw [hi _ further hl]
  · next h =>
    split
    · unfold unaryOperand
      rw [ht _ further (Cursor.length_advance_lt h)]
    · rfl

end Bodies

/-! ## One more step changes nothing -/

/-- With `fuel`, a step more changes no answer on tokens that `fuel` suffices for. -/
structure Enough (resolve : Resolver) (fuel : Nat) : Prop where
  sequence : ∀ c : Cursor, 3 * c.rest.length + 3 ≤ fuel →
    sequence resolve (fuel + 1) c = sequence resolve fuel c
  sequenceTail : ∀ v (c : Cursor), 3 * c.rest.length + 1 ≤ fuel →
    sequenceTail resolve (fuel + 1) v c = sequenceTail resolve fuel v c
  expression : ∀ level (c : Cursor), 3 * c.rest.length + 2 ≤ fuel →
    expression resolve (fuel + 1) level c = expression resolve fuel level c
  operands : ∀ v (c : Cursor), 3 * c.rest.length + 2 ≤ fuel →
    operands resolve (fuel + 1) v c = operands resolve fuel v c
  operators : ∀ level v (c : Cursor), 3 * c.rest.length + 1 ≤ fuel →
    operators resolve (fuel + 1) level v c = operators resolve fuel level v c
  operand : ∀ c : Cursor, 3 * c.rest.length + 1 ≤ fuel →
    operand resolve (fuel + 1) c = operand resolve fuel c

theorem steps_enough (resolve : Resolver) (fuel : Nat) : Enough resolve fuel := by
  induction fuel with
  | zero => constructor <;> intros <;> omega
  | succ fuel ih =>
    have progress := steps_progress resolve fuel
    constructor
    case sequence =>
      intro c hc
      rw [sequence.eq_2 _ _ (fuel + 1), sequence.eq_2 _ _ fuel, ih.expression _ c (by omega)]
      refine (progress.expression _ c).bind_congr fun v d hd => ?_
      exact ih.sequenceTail v d (by omega)
    case sequenceTail =>
      intro v c hc
      rw [sequenceTail.eq_2 _ _ _ (fuel + 1), sequenceTail.eq_2 _ _ _ fuel]
      split
      · next h =>
        have hl := Cursor.length_advance_lt (Cursor.peek?_of_atMark h)
        rw [ih.expression _ c.advance (by omega)]
        refine (progress.expression _ c.advance).bind_congr fun w d hd => ?_
        exact ih.sequenceTail w d (by omega)
      · rfl
    case expression =>
      intro level c hc
      rw [expression.eq_2 _ _ _ (fuel + 1), expression.eq_2 _ _ _ fuel]
      refine counted_congr fun d hd => ?_
      rw [ih.operand d (by rw [hd]; omega)]
      refine (progress.operand d).bind_congr fun v e he => ?_
      rw [hd] at he
      dsimp only
      rw [ih.operands v e (by omega)]
      refine (progress.operands v e).bind_congr fun w f hf => ?_
      exact ih.operators level w f (by omega)
    case operands =>
      intro v c hc
      rw [operands.eq_2 _ _ _ (fuel + 1), operands.eq_2 _ _ _ fuel]
      split
      · rw [ih.operand c (by omega)]
        refine (progress.operand c).bind_congr fun w d hd => ?_
        exact ih.operands w d (by omega)
      · rfl
    case operators =>
      intro level v c hc
      rw [operators.eq_2 _ _ _ c (fuel + 1), operators.eq_2 _ _ _ c fuel]
      split
      · next h =>
        have hl := Cursor.length_advance_lt h
        rw [ih.operators level v c.advance (by omega)]
      · next h =>
        have hl := Cursor.length_advance_lt h
        split
        · rw [arms_congr (fun d => (progress.sequence d).keeps)
            (fun d hd => ih.sequence d (by have := hd.length_le; omega))
            (fun d hd => ih.expression _ d (by have := hd.length_le; omega))]
          refine (arms_keeps (fun d => (progress.sequence d).keeps)
            (fun d => (progress.expression _ d).keeps) v _).bind_congr fun w d hd => ?_
          exact ih.operators level w d (by omega)
        · rfl
      · next h =>
        have hl := Cursor.length_advance_lt h
        split
        · rfl
        · split
          · rfl
          · next op _ _ =>
            rw [rightOperand_congr
              (fun d hd => ih.expression op.precedence d (by have := hd.length_le; omega))]
            refine (rightOperand_keeps (fun d => (progress.expression _ d).keeps) op v
              _).bind_congr fun w d hd => ?_
            exact ih.operators level w d (by omega)
      · rfl
    case operand =>
      intro c hc
      rw [operand.eq_2 _ _ (fuel + 1), operand.eq_2 _ _ fuel]
      refine counted_congr fun d hd =>
        primary_congr (fun _ _ => rfl) (fun e _ he => ?_) fun e _ he => ?_
      · rw [hd] at he
        exact ih.sequence e (by omega)
      · rw [hd] at he
        exact ih.expression _ e (by omega)

/-! ## The readers without fuel -/

/-- The fuel that suffices for the tokens left at `c`. -/
def Cursor.fuel (c : Cursor) : Nat := fuelFor c.rest.length

/-- `sequence` with enough fuel. -/
def readSequence (resolve : Resolver) (c : Cursor) : Step := sequence resolve c.fuel c

/-- `sequenceTail` with enough fuel. -/
def readTail (resolve : Resolver) (v : Option Number) (c : Cursor) : Step :=
  sequenceTail resolve c.fuel v c

/-- `expression` with enough fuel. -/
def readExpression (resolve : Resolver) (level : Nat) (c : Cursor) : Step :=
  expression resolve c.fuel level c

/-- `operands` with enough fuel. -/
def readOperands (resolve : Resolver) (v : Option Number) (c : Cursor) : Step :=
  operands resolve c.fuel v c

/-- `operators` with enough fuel. -/
def readOperators (resolve : Resolver) (level : Nat) (v : Option Number) (c : Cursor) : Step :=
  operators resolve c.fuel level v c

/-- `operand` with enough fuel. -/
def readOperand (resolve : Resolver) (c : Cursor) : Step := operand resolve c.fuel c

/-- A function of the fuel that no longer changes from `need` on has its value at `need`
everywhere above. -/
theorem eq_of_enough {f : Nat → Step} {need : Nat} (h : ∀ n, need ≤ n → f (n + 1) = f n)
    {n m : Nat} (hn : need ≤ n) (hm : need ≤ m) : f n = f m := by
  have base : ∀ k, f (need + k) = f need := by
    intro k
    induction k with
    | zero => rfl
    | succ k ih => rw [← Nat.add_assoc, h _ (by omega), ih]
  have hn' := base (n - need)
  have hm' := base (m - need)
  rw [show need + (n - need) = n by omega] at hn'
  rw [show need + (m - need) = m by omega] at hm'
  rw [hn', hm']

theorem Cursor.le_fuel {c : Cursor} {n : Nat} (h : n ≤ 3) : 3 * c.rest.length + n ≤ c.fuel := by
  unfold Cursor.fuel fuelFor
  omega

section Enough

variable (resolve : Resolver) {fuel : Nat} {c : Cursor}

theorem sequence_eq_read (h : 3 * c.rest.length + 3 ≤ fuel) :
    sequence resolve fuel c = readSequence resolve c :=
  eq_of_enough (f := fun n => sequence resolve n c)
    (fun n hn => (steps_enough resolve n).sequence c hn) h (Cursor.le_fuel (by decide))

theorem sequenceTail_eq_read (h : 3 * c.rest.length + 1 ≤ fuel) (v : Option Number) :
    sequenceTail resolve fuel v c = readTail resolve v c :=
  eq_of_enough (f := fun n => sequenceTail resolve n v c)
    (fun n hn => (steps_enough resolve n).sequenceTail v c hn) h (Cursor.le_fuel (by decide))

theorem expression_eq_read (h : 3 * c.rest.length + 2 ≤ fuel) (level : Nat) :
    expression resolve fuel level c = readExpression resolve level c :=
  eq_of_enough (f := fun n => expression resolve n level c)
    (fun n hn => (steps_enough resolve n).expression level c hn) h (Cursor.le_fuel (by decide))

theorem operands_eq_read (h : 3 * c.rest.length + 2 ≤ fuel) (v : Option Number) :
    operands resolve fuel v c = readOperands resolve v c :=
  eq_of_enough (f := fun n => operands resolve n v c)
    (fun n hn => (steps_enough resolve n).operands v c hn) h (Cursor.le_fuel (by decide))

theorem operators_eq_read (h : 3 * c.rest.length + 1 ≤ fuel) (level : Nat) (v : Option Number) :
    operators resolve fuel level v c = readOperators resolve level v c :=
  eq_of_enough (f := fun n => operators resolve n level v c)
    (fun n hn => (steps_enough resolve n).operators level v c hn) h (Cursor.le_fuel (by decide))

theorem operand_eq_read (h : 3 * c.rest.length + 1 ≤ fuel) :
    operand resolve fuel c = readOperand resolve c :=
  eq_of_enough (f := fun n => operand resolve n c)
    (fun n hn => (steps_enough resolve n).operand c hn) h (Cursor.le_fuel (by decide))

end Enough

/-! ## What the readers without fuel leave -/

section Progress

variable (resolve : Resolver) (c : Cursor)

theorem readSequence_advances : Advances c (readSequence resolve c) :=
  (steps_progress resolve _).sequence c

theorem readExpression_advances (level : Nat) : Advances c (readExpression resolve level c) :=
  (steps_progress resolve _).expression level c

theorem readOperands_keeps (v : Option Number) : Keeps c (readOperands resolve v c) :=
  (steps_progress resolve _).operands v c

theorem readOperand_advances : Advances c (readOperand resolve c) :=
  (steps_progress resolve _).operand c

end Progress

/-! ## The equations of the grammar -/

/-- The operators after a mark that is no question mark. -/
theorem operators_mark {resolve : Resolver} {fuel level : Nat} {v : Option Number} {c : Cursor}
    {m : Mark} (h : c.peek? = some (.mark m)) (other : m ≠ .question) :
    operators resolve (fuel + 1) level v c =
      match m.binary? with
      | none => .ok (v, c)
      | some op =>
        if op.precedence ≤ level then .ok (v, c)
        else rightOperand (expression resolve fuel op.precedence) op v c.advance >>= fun p =>
          operators resolve fuel level p.1 p.2 := by
  rw [operators, h]
  cases m <;> first | rfl | exact absurd rfl other

section Equations

variable (resolve : Resolver) (c : Cursor)

theorem readSequence_eq :
    readSequence resolve c =
      (readExpression resolve conditionalPrecedence c >>= fun p => readTail resolve p.1 p.2) := by
  rw [readSequence, Cursor.fuel, fuelFor, Eval.sequence,
    expression_eq_read resolve (Nat.le_refl _)]
  refine (readExpression_advances resolve c _).bind_congr fun v d hd => ?_
  exact sequenceTail_eq_read resolve (by omega) v

theorem readTail_eq (v : Option Number) :
    readTail resolve v c =
      if c.atMark .comma then
        readExpression resolve conditionalPrecedence c.advance >>= fun p =>
          readTail resolve p.1 p.2
      else .ok (v, c) := by
  rw [readTail, Cursor.fuel, fuelFor, Eval.sequenceTail]
  split
  · next h =>
    have hl := Cursor.length_advance_lt (Cursor.peek?_of_atMark h)
    rw [expression_eq_read resolve (by omega)]
    refine (readExpression_advances resolve c.advance _).bind_congr fun w d hd => ?_
    exact sequenceTail_eq_read resolve (by omega) w
  · rfl

theorem readExpression_eq (level : Nat) :
    readExpression resolve level c =
      counted (fun c => readOperand resolve c >>= fun p =>
        readOperands resolve p.1 p.2 >>= fun q => readOperators resolve level q.1 q.2) c := by
  rw [readExpression, Cursor.fuel, fuelFor, Eval.expression]
  refine counted_congr fun d hd => ?_
  rw [operand_eq_read resolve (by rw [hd]; omega)]
  refine (readOperand_advances resolve d).bind_congr fun v e he => ?_
  rw [hd] at he
  dsimp only
  rw [operands_eq_read resolve (by omega)]
  refine (readOperands_keeps resolve e v).bind_congr fun w f hf => ?_
  exact operators_eq_read (c := f) resolve (by omega) level w

theorem readOperands_eq (v : Option Number) :
    readOperands resolve v c =
      if v.isNone && c.atOperand then
        readOperand resolve c >>= fun p => readOperands resolve p.1 p.2
      else .ok (v, c) := by
  rw [readOperands, Cursor.fuel, fuelFor, Eval.operands]
  split
  · rw [operand_eq_read resolve (by omega)]
    refine (readOperand_advances resolve c).bind_congr fun w d hd => ?_
    exact operands_eq_read resolve (by omega) w
  · rfl

theorem readOperators_suffix {c : Cursor} {word : String} (h : c.peek? = some (.ident word))
    (suffix : isIntSuffix word = true) {level : Nat} (v : Option Number) :
    readOperators resolve level v c = readOperators resolve level v c.advance := by
  have hl := Cursor.length_advance_lt h
  rw [readOperators, Cursor.fuel, fuelFor, Eval.operators, h]
  dsimp only
  rw [if_pos suffix]
  exact operators_eq_read (c := c.advance) resolve (by omega) level v

theorem readOperators_question {c : Cursor} (h : c.peek? = some (.mark .question)) {level : Nat}
    (hlevel : level ≤ conditionalPrecedence) (v : Option Number) :
    readOperators resolve level v c =
      (arms (readSequence resolve) (readExpression resolve conditionalPrecedence) v c.advance >>=
        fun p => readOperators resolve level p.1 p.2) := by
  have hl := Cursor.length_advance_lt h
  rw [readOperators, Cursor.fuel, fuelFor, Eval.operators, h]
  dsimp only
  rw [if_pos hlevel, arms_congr (fun d => (readSequence_advances resolve d).keeps)
    (fun d hd => sequence_eq_read resolve (by have := hd.length_le; omega))
    (fun d hd => expression_eq_read resolve (by have := hd.length_le; omega) _)]
  refine (arms_keeps (fun d => (readSequence_advances resolve d).keeps)
    (fun d => (readExpression_advances resolve d _).keeps) v _).bind_congr fun w d hd => ?_
  exact operators_eq_read (c := d) resolve (by omega) level w

theorem readOperators_binary {c : Cursor} {m : Mark} {op : BinaryOp}
    (h : c.peek? = some (.mark m)) (hop : m.binary? = some op) {level : Nat}
    (hlevel : level < op.precedence) (v : Option Number) :
    readOperators resolve level v c =
      (rightOperand (readExpression resolve op.precedence) op v c.advance >>= fun p =>
        readOperators resolve level p.1 p.2) := by
  have hl := Cursor.length_advance_lt h
  have other : m ≠ .question := by
    rintro rfl
    cases hop
  rw [readOperators, Cursor.fuel, fuelFor, operators_mark h other, hop]
  dsimp only
  rw [if_neg (by omega),
    rightOperand_congr
      (fun d hd => expression_eq_read resolve (by have := hd.length_le; omega) _)]
  refine (rightOperand_keeps (fun d => (readExpression_advances resolve d _).keeps) op v
    _).bind_congr fun w d hd => ?_
  exact operators_eq_read (c := d) resolve (by omega) level w

/-- The operators of an expression at `level` end before this token. -/
def stops (level : Nat) : Option Token → Bool
  | some (.ident word) => !isIntSuffix word
  | some (.mark .question) => conditionalPrecedence < level
  | some (.mark m) => (m.binary?.map fun op => decide (op.precedence ≤ level)).getD true
  | _ => true

theorem readOperators_stop {c : Cursor} {level : Nat} (h : stops level c.peek? = true)
    (v : Option Number) : readOperators resolve level v c = .ok (v, c) := by
  rw [readOperators, Cursor.fuel, fuelFor, Eval.operators]
  split
  · next e =>
    rw [e] at h
    rw [if_neg (by simpa [stops] using h)]
  · next e =>
    rw [e] at h
    rw [if_neg (by simpa [stops] using h)]
  · next m hm e =>
    rw [e] at h
    split
    · rfl
    · next op hop =>
      have : op.precedence ≤ level := by
        unfold stops at h
        split at h
        · next e => cases e
        · next e => cases e; exact absurd rfl hm
        · next e => cases e; simpa [hop] using h
        · next e => exact absurd rfl (e m)
      rw [if_pos this]
  · rfl

theorem readOperand_eq :
    readOperand resolve c =
      counted (primary resolve (readSequence resolve)
        (readExpression resolve unaryPrecedence)) c := by
  rw [readOperand, Cursor.fuel, fuelFor, Eval.operand]
  refine counted_congr fun d hd =>
    primary_congr (fun _ _ => rfl) (fun e _ he => ?_) fun e _ he => ?_
  · rw [hd] at he
    exact sequence_eq_read resolve (by omega)
  · rw [hd] at he
    exact expression_eq_read resolve (by omega) _

end Equations

/-! ## The forms of an operand -/

section Primary

variable {resolve : Resolver} {inner tight : Cursor → Step} {c : Cursor} {w : String}

theorem primary_ident (h : c.peek? = some (.ident w)) :
    primary resolve inner tight c = name resolve w c.advance := by
  unfold primary
  rw [h]

theorem primary_cast (h : c.peek? = some (.mark .leftParen))
    {rest : List (Token × Nat)} (cast : afterCast false c.advance.rest = some rest) :
    primary resolve inner tight c = tight { c with rest := rest } := by
  unfold primary
  rw [h]
  dsimp only
  rw [cast]

theorem primary_group (h : c.peek? = some (.mark .leftParen))
    (noCast : afterCast false c.advance.rest = none) :
    primary resolve inner tight c = group inner c.advance := by
  unfold primary
  rw [h]
  dsimp only
  rw [noCast]

theorem primary_mark {m : Mark} (h : c.peek? = some (.mark m)) (left : m ≠ .leftParen) :
    primary resolve inner tight c =
      match m.unary? with
      | some op => unaryOperand tight op c.advance
      | none => .error (.malformed c.offset (.unexpected (.mark m))) := by
  unfold primary
  rw [h]
  cases m <;> first | rfl | exact absurd rfl left

end Primary

end ConstLookup.Eval
