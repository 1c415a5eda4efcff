import ConstLookup.Proofs.Expr.Spelling

/-!
  The expression `(name) + 1`. A name for a constant in it is read as that constant, and the value
  is its successor (`evaluate_successor_name`). The parentheses make other names something else:
  the name of a type becomes a cast of `+ 1` (`evaluate_successor_type`), an annotation or a size
  operator lacks its argument (`evaluate_successor_reserved`), and a character that no identifier
  has is no token (`evaluate_successor_foreign`).
-/

namespace ConstLookup

open ConstLookup.Text

/-! ## Tokens -/

/-- The tokens of `(name) + 1`. -/
def successorTokens (name : String) : List Token :=
  [.mark .leftParen, .ident name, .mark .rightParen, .mark .plus, .int 1]

theorem toList_successor (name : String) :
    (s!"({name}) + 1").toList = '(' :: (name.toList ++ ") + 1".toList) := by
  simp [toString]

namespace Lexer

theorem nextToken_leftParen (offset : Nat) (cs : List Char) :
    nextToken offset '(' cs = .ok (.mark .leftParen, cs) := rfl

theorem tokens_successor {name : String} (h : isIdentifier name.toList = true) :
    ∃ ts, tokens ('(' :: (name.toList ++ ") + 1".toList)) = .ok ts ∧
      ts.map Prod.fst = successorTokens name := by
  have spelled : Spells [.mark .rightParen, .mark .plus, .int 1] ") + 1".toList :=
    spells_spell nofun
  have plain : ∀ t ∈ [Token.mark .rightParen, .mark .plus, .int 1], t.Plain :=
    List.forall_mem_cons.mpr ⟨trivial, List.forall_mem_cons.mpr ⟨trivial,
      List.forall_mem_singleton.mpr ⟨1, rfl, by decide⟩⟩⟩
  have stops : ∀ c ∈ (") + 1".toList).head?, isIdentPart c = false := by
    rintro _ ⟨⟩
    decide
  obtain ⟨steps, offset, enough, first⟩ := tokensFrom_next (by decide) (Nat.le_refl _)
    (Nat.le_refl _) (nextToken_leftParen 0 (name.toList ++ ") + 1".toList))
  obtain ⟨c, cs, text, blank, next⟩ := nextToken_ident h stops offset
  have whole : name.toList ++ ") + 1".toList = c :: (cs ++ ") + 1".toList) := by rw [text]; rfl
  rw [whole] at enough first ⊢
  obtain ⟨steps', offset', enough', second⟩ := tokensFrom_next blank (by simp) enough next
  obtain ⟨ts, last, same⟩ := tokensFrom_spelled spelled plain enough' offset'
  rw [second, last] at first
  refine ⟨_, first, ?_⟩
  simp only [List.map_cons, same]
  rfl

/-- A character that words of C may hold and expressions may not: a dollar sign, or a letter
outside ASCII. -/
def Foreign (c : Char) : Prop := isIdentPart c = false ∧ (isWord c = true ∨ c = '$')

theorem Foreign.ne {c : Char} (h : Foreign c) {a : Char} (ascii : a.toNat < 128) (ha : a ≠ '$') :
    c ≠ a := by
  rintro rfl
  obtain ⟨part, word | rfl⟩ := h
  · rw [isWord, if_pos ascii, part] at word
    cases word
  · exact ha rfl

theorem mark?_foreign {c : Char} (h : Foreign c) (cs : List Char) : mark? (c :: cs) = none := by
  have first (m : Mark) : ∃ a as, m.text.toList = a :: as ∧ a.toNat < 128 ∧ a ≠ '$' := by
    cases m <;> exact ⟨_, _, rfl, by decide⟩
  refine List.findSome?_eq_none_iff.mpr fun m _ => if_neg ?_
  obtain ⟨a, as, text, ascii, dollar⟩ := first m
  rw [text]
  simp [List.isPrefixOf, (h.ne ascii dollar).symm]

theorem nextToken_foreign {c : Char} (h : Foreign c) (offset : Nat) (cs : List Char) :
    nextToken offset c cs = .error (.unsupported c.toString) := by
  have hex := startsHex_of_ne (h.ne (by decide) (by decide)) cs
  have part := h.1
  simp only [isIdentPart, Bool.or_eq_false_iff] at part
  have start : isIdentStart c = false := by
    rw [isIdentStart, part.1.1, part.2]
    rfl
  rw [nextToken, hex, part.1.2, start, mark?_foreign h]
  simp [h.ne (a := '.') (by decide) (by decide), h.ne (a := '\'') (by decide) (by decide),
    h.ne (a := '"') (by decide) (by decide)]

/-- A foreign character inside of a word, or at its start, is no token. -/
theorem tokens_foreign {front cs : List Char} (hf : front = [] ∨ isIdentifier front = true)
    {c : Char} (hc : Foreign c) :
    tokens ('(' :: (front ++ c :: cs)) = .error (.unsupported c.toString) := by
  have blank : isAsciiBlank c = false := Bool.eq_false_iff.mpr fun hb =>
    blank_cases (p := (c ≠ ·)) hb ⟨hc.ne (by decide) (by decide), hc.ne (by decide) (by decide),
      hc.ne (by decide) (by decide), hc.ne (by decide) (by decide),
      hc.ne (by decide) (by decide)⟩ rfl
  have fails {steps : Nat} (enough : (c :: cs).length ≤ steps) (offset : Nat) :
      tokensFrom steps offset (c :: cs) = .error (.unsupported c.toString) := by
    cases steps with
    | zero => simp at enough
    | succ steps =>
      rw [tokensFrom, if_neg (by simp [blank]), nextToken_foreign hc]
      rfl
  have stops : ∀ d ∈ (c :: cs).head?, isIdentPart d = false := by
    rintro _ ⟨⟩
    exact hc.1
  obtain ⟨steps, offset, enough, first⟩ := tokensFrom_next (by decide) (Nat.le_refl _)
    (Nat.le_refl _) (nextToken_leftParen 0 (front ++ c :: cs))
  refine first.trans ?_
  rcases hf with rfl | hf
  · rw [List.nil_append] at enough ⊢
    rw [fails enough]
    rfl
  · rw [← String.toList_ofList (l := front)] at hf
    obtain ⟨a, as, text, blank', next⟩ := nextToken_ident hf stops offset
    have whole : front ++ c :: cs = a :: (as ++ c :: cs) := by
      rw [← String.toList_ofList (l := front), text]
      rfl
    rw [whole] at enough ⊢
    obtain ⟨steps', offset', enough', second⟩ := tokensFrom_next blank' (by simp) enough next
    rw [second, fails enough']
    rfl

end Lexer

namespace HexShield

theorem shield_successor {name : String} (h : isIdentifier name.toList = true) :
    shieldFrom false (s!"({name}) + 1").toList = (s!"({name}) + 1").toList := by
  have rest : shieldFrom true ") + 1".toList = ") + 1".toList := by decide +kernel
  rw [toList_successor, shieldFrom_cons (.inr (.inl (by decide))), shieldFrom_ident h, rest]

theorem shield_foreign {front : List Char} (hf : front = [] ∨ isIdentifier front = true)
    {c : Char} (hc : Lexer.Foreign c) (cs : List Char) :
    ∃ cs', shieldFrom false ('(' :: (front ++ c :: cs)) = '(' :: (front ++ c :: cs') := by
  have copied (inWord : Bool) : shieldFrom inWord (c :: cs) = c :: shieldFrom (isWord c) cs :=
    shieldFrom_cons (.inr (.inl (hc.ne (by decide) (by decide))))
  refine ⟨shieldFrom (isWord c) cs, ?_⟩
  rw [shieldFrom_cons (.inr (.inl (by decide)))]
  rcases hf with rfl | hf
  · rw [List.nil_append, List.nil_append, copied]
  · rw [shieldFrom_ident hf, copied]

end HexShield

/-! ## Values -/

namespace Eval

variable {resolve : Resolver} {w : String} {c d : Cursor}

/-- Tokens that are an operand with operators have its value. -/
theorem tokens_of_operation {ts : List (Token × Nat)} (ne : ts.isEmpty = false)
    {x : Except EvalError Number}
    (h : ∀ c d : Cursor, c.depth = 1 → c.skipping = false → c.Reads (ts.map Prod.fst) d →
      d.peek? = none →
      Within maxDepth (readOperation resolve conditionalPrecedence c) (yields x d)) :
    tokens resolve ts = x.map some := by
  have reads := (Cursor.start ts).reads_rest
  have sequence : Within maxDepth (readSequence resolve (.start ts))
      (yields x { Cursor.start ts with rest := [] }) :=
    sequence_of_operation rfl (h _ _ rfl rfl (reads.withDepth 1) rfl) rfl
      (show 1 ≤ maxDepth by decide)
  exact (tokens_of_sequence ne sequence rfl).eq (Nat.le_refl _)

/-- An operand in parentheses, and one added to it. -/
theorem operation_successor (n : ConstantName) {v : Int} (value : resolve n.text = some (.int v))
    (depth : c.depth = 1) (taken : c.skipping = false) (h : c.Reads (successorTokens n.text) d)
    (finish : d.peek? = none) :
    Within maxDepth (readOperation resolve conditionalPrecedence c)
      (yields (checkedInt (v + 1)) d) := by
  have split : successorTokens n.text =
      ExprTree.enclosed true (ExprTree.name n).tokens ++ .mark .plus :: [.int 1] := rfl
  rw [split] at h
  obtain ⟨m, left, plus, right⟩ := Cursor.reads_append.mp h
  have depths : m.advance.depth = 1 := left.depth_eq.trans depth
  have reference : Climbs resolve (.name n) := climbs_name n
  have first := reference.enclosed conditionalPrecedence left nofun
  have name : (ExprTree.name n).evalIn resolve c.skipping = .ok (.int v) := by
    rw [taken, ExprTree.evalIn, value]
    rfl
  rw [name] at first
  have literal : Climbs resolve (.literal 1 (by decide)) := climbs_literal 1 (by decide)
  have bare : m.advance.Reads (ExprTree.enclosed false [.int 1]) d := right
  have one := literal.rightOperand BinaryOp.add.precedence bare
    (fun _ => ExprTree.fits_of_lt (by decide)) (finish ▸ .finish)
  have add : Within maxDepth
      (rightOperand (readExpression resolve BinaryOp.add.precedence) .add (some (.int v)) m.advance)
      (yields (checkedInt (v + 1)) d) := by
    have enough : m.advance.depth + 3 + (ExprTree.literal 1 (by decide)).need ≤ maxDepth := by
      rw [depths]
      decide
    have sum := (rightOperand_within one .add (.int v)).mono enough
    rw [show m.advance.skipping = false from left.skipping_eq.trans taken] at sum
    exact ExprTree.guarded_false (checkedInt (v + 1)) ▸ sum
  refine (first.mono ?_).trans ?_
  · rw [depth]
    exact show 4 ≤ maxDepth by decide
  · show Within maxDepth (readOperators resolve conditionalPrecedence (some (.int v)) m) _
    have ends : Follows conditionalPrecedence d.peek? := finish ▸ .finish
    rw [readOperators_binary resolve plus (show Mark.plus.binary? = some .add from rfl) (by decide),
      ← operators_yield (checkedInt (v + 1)) ends]
    exact add.andThen fun sum => .refl _ _

/-- The name of a type in parentheses before an operand is a cast. -/
theorem afterCast_type (type : isTypeWord w = true) (word : c.peek? = some (.ident w))
    (close : c.advance.peek? = some (.mark .rightParen)) {t : Token}
    (operand : c.advance.advance.peek? = some t) (starts : t.startsOperand = true) :
    afterCast false c.rest = some c.advance.advance.rest := by
  obtain ⟨_, first⟩ := Cursor.rest_of_peek? word
  obtain ⟨_, second⟩ := Cursor.rest_of_peek? close
  obtain ⟨_, third⟩ := Cursor.rest_of_peek? operand
  rw [first, afterCast, if_pos type, second, afterCast, third]
  simp [starts]

/-- The name of a type in parentheses casts what follows it. -/
theorem operation_cast (type : isTypeWord w = true) (depth : c.depth = 1)
    (h : c.Reads (successorTokens w) d) (finish : d.peek? = none) :
    Within maxDepth (readOperation resolve conditionalPrecedence c)
      (yields (.ok (.int 1)) d) := by
  have plus : Climbs resolve (.unary .plus (.literal 1 (by decide))) :=
    climbs_unary .plus (climbs_literal 1 (by decide))
  have operand : Within maxDepth (readOperand resolve c) (yields (.ok (.int 1)) d) := by
    rw [readOperand_eq]
    refine counted_within h.depth_eq ?_ (by rw [depth]; decide)
    obtain ⟨opens, word, close, sign⟩ := h.withDepth (c.depth + 1)
    rw [primary_cast opens (afterCast_type type word close sign.1 rfl)]
    refine (plus.expression (ExprTree.fits_unary (Nat.le_refl _)) sign (finish ▸ .finish)).mono ?_
    show c.depth + 1 + 1 + _ ≤ maxDepth
    rw [depth]
    decide
  have operation : Within maxDepth (readOperation resolve conditionalPrecedence c) _ :=
    operand_within operand
  rwa [operators_yield _ (finish ▸ .finish)] at operation

/-- The reader fails, however many operands are open. -/
def Refuses (read : Cursor → Step) (c : Cursor) : Prop :=
  ∀ depth, ∃ e, read { c with depth := depth } = .error e

theorem Refuses.counted {read : Cursor → Step} (h : Refuses read c) :
    Refuses (counted read) c := by
  intro depth
  obtain ⟨e, he⟩ := h (depth + 1)
  unfold Eval.counted Cursor.enter
  split
  · refine ⟨e, ?_⟩
    show (read { c with depth := depth + 1 } >>= _) = _
    rw [he]
    rfl
  · exact ⟨.tooDeep, rfl⟩

/-- No sequence begins where no operand does. -/
theorem Refuses.sequence
    (h : Refuses (primary resolve (readSequence resolve) (readExpression resolve unaryPrecedence))
      c) : Refuses (readSequence resolve) c := by
  have operand : Refuses (readOperand resolve) c := fun depth => by
    rw [readOperand_eq]
    exact h.counted depth
  have operation : Refuses (readOperation resolve conditionalPrecedence) c := fun depth => by
    obtain ⟨e, he⟩ := operand depth
    rw [readOperation, he]
    exact ⟨e, rfl⟩
  have expression : Refuses (readExpression resolve conditionalPrecedence) c := fun depth => by
    rw [readExpression_eq]
    exact operation.counted depth
  intro depth
  obtain ⟨e, he⟩ := expression depth
  rw [readSequence_eq, he]
  exact ⟨e, rfl⟩

/-- An annotation or a size operator needs an opening parenthesis after it. -/
theorem name_reserved
    (reserved : annotations.contains w = true ∨ w = "sizeof" ∨ w = "_Alignof")
    (taken : c.skipping = false) (close : c.peek? = some (.mark .rightParen)) :
    ∃ e, name resolve w c = .error e := by
  unfold name
  split
  · have closed : c.atMark .leftParen = false := by
      rw [Cursor.atMark, close]
      rfl
    rw [skipGroup, Cursor.expect, closed]
    exact ⟨_, rfl⟩
  · next other =>
    have size : (w = "sizeof" || w = "_Alignof") = true := by
      simpa using reserved.resolve_left other
    rw [taken, size]
    exact ⟨_, rfl⟩

theorem refuses_reserved (noType : isTypeWord w = false)
    (reserved : annotations.contains w = true ∨ w = "sizeof" ∨ w = "_Alignof")
    (taken : c.skipping = false) (h : c.Reads (successorTokens w) d) :
    Refuses (readSequence resolve) c := by
  obtain ⟨opens, word, close, -⟩ := h
  have noCast : afterCast false c.advance.rest = none :=
    afterCast_false word fun _ same => by cases same; exact noType
  have inner : Refuses (readSequence resolve) c.advance := Refuses.sequence fun depth => by
    rw [primary_ident (c := { c.advance with depth := depth }) word]
    exact name_reserved (c := { c.advance.advance with depth := depth }) reserved taken close
  refine Refuses.sequence fun depth => ?_
  obtain ⟨e, he⟩ := inner depth
  rw [primary_group (c := { c with depth := depth }) opens noCast]
  refine ⟨e, ?_⟩
  show (readSequence resolve { c.advance with depth := depth } >>= _) = _
  rw [he]
  rfl

end Eval

section Evaluate

variable {known : Resolver} {name : String}

theorem evaluate_successor_tokens (known : Resolver) (h : isIdentifier name.toList = true) :
    ∃ ts, ts.map Prod.fst = successorTokens name ∧ ts.isEmpty = false ∧
      evaluate known (s!"({name}) + 1") = Eval.tokens known ts := by
  obtain ⟨ts, lexed, same⟩ := Lexer.tokens_successor h
  refine ⟨ts, same, ?_, ?_⟩
  · cases ts with
    | nil => cases same
    | cons t ts => rfl
  · rw [evaluate, HexShield.shield, HexShield.shield_successor h, evaluateShielded,
      String.toList_ofList, toList_successor, lexed]
    rfl

/-- A name for a constant means the constant. -/
theorem evaluate_successor_name (n : ConstantName) {v : Int}
    (value : known n.text = some (.int v)) :
    evaluate known (s!"({n.text}) + 1") = (checkedInt (v + 1)).map some := by
  obtain ⟨ts, same, ne, e⟩ := evaluate_successor_tokens known n.identifier
  rw [e]
  refine Eval.tokens_of_operation ne fun c d depth taken reads finish => ?_
  exact Eval.operation_successor n value depth taken (same ▸ reads) finish

/-- The name of a type makes a cast. -/
theorem evaluate_successor_type (h : isIdentifier name.toList = true)
    (type : Eval.isTypeWord name = true) :
    evaluate known (s!"({name}) + 1") = .ok (some (.int 1)) := by
  obtain ⟨ts, same, ne, e⟩ := evaluate_successor_tokens known h
  rw [e]
  refine Eval.tokens_of_operation (x := .ok (.int 1)) ne fun c d depth _ reads finish => ?_
  exact Eval.operation_cast type depth (same ▸ reads) finish

/-- An annotation or a size operator has no argument there. -/
theorem evaluate_successor_reserved (h : isIdentifier name.toList = true)
    (noType : Eval.isTypeWord name = false)
    (reserved : Eval.annotations.contains name = true ∨ name = "sizeof" ∨ name = "_Alignof") :
    ∃ e, evaluate known (s!"({name}) + 1") = .error e := by
  obtain ⟨ts, same, ne, e⟩ := evaluate_successor_tokens known h
  have reads := (Eval.Cursor.start ts).reads_rest
  rw [show (Eval.Cursor.start ts).rest = ts from rfl, same] at reads
  have refuses : Eval.Refuses (Eval.readSequence known) (.start ts) :=
    Eval.refuses_reserved noType reserved rfl reads
  obtain ⟨cause, failed⟩ := refuses 0
  rw [e]
  unfold Eval.tokens
  rw [ne]
  exact ⟨cause, congrArg (· >>= _) failed⟩

/-- A word with a foreign character is no token. -/
theorem evaluate_successor_foreign {front cs : List Char} {c : Char}
    (text : name.toList = front ++ c :: cs) (hf : front = [] ∨ isIdentifier front = true)
    (hc : Lexer.Foreign c) :
    evaluate known (s!"({name}) + 1") = .error (.unsupported c.toString) := by
  obtain ⟨cs', marked⟩ := HexShield.shield_foreign hf hc (cs ++ ") + 1".toList)
  have whole : (s!"({name}) + 1").toList = '(' :: (front ++ c :: (cs ++ ") + 1".toList)) := by
    rw [toList_successor, text, List.append_assoc]
    rfl
  rw [evaluate, HexShield.shield, whole, marked, evaluateShielded, String.toList_ofList,
    Lexer.tokens_foreign hf hc]
  rfl

end Evaluate

end ConstLookup
