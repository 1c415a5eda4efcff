import ConstLookup.Proofs.Expr.Spelling

/-!
  Integer literals of every base, with any suffix, evaluate to their number (`evaluate_literal`).
  Marking changes hexadecimal literals only. So the literals of the other bases reach the scanner
  of numbers as they are written (`shieldFrom_numeral`), and a hexadecimal literal reaches its own
  reader with its digits between quotes (`shieldFrom_hexadecimal`). Both refuse the numbers beyond
  the word (`Lexer.Reads`).
-/

namespace ConstLookup

open ConstLookup.Text

namespace Lexer

/-! ## One token -/

/-- The tokens of a text that is one token. -/
theorem tokens_reads {n : Nat} {c : Char} {cs : List Char} (blank : isAsciiBlank c = false)
    (h : Reads n (.int n, []) (nextToken 0 c cs)) : Reads n [(.int n, 0)] (tokens (c :: cs)) := by
  rw [tokens, List.length_cons, tokensFrom, if_neg (by simp [blank])]
  refine h.bind ?_
  dsimp only
  rw [tokensFrom_nil]
  rfl

theorem suffix_letter {c : Char} (h : isIntSuffixLetter c = true) :
    isIdentPart c = true ∧ isHexDigit c = false ∧ c ∉ ['x', 'X'] := by
  simp only [isIntSuffixLetter, Bool.or_eq_true, decide_eq_true_eq] at h
  rcases h with ((rfl | rfl) | rfl) | rfl <;> decide

/-! ## Numerals -/

section Numeral

variable {n : Nat} {text suffix : List Char}

/-- A numeral with a suffix is one word, and does not begin like a hexadecimal literal. -/
theorem Numeral.parts (h : Numeral n text) (hs : ∀ c ∈ suffix, isIntSuffixLetter c = true) :
    ∀ c ∈ text ++ suffix, isIdentPart c = true ∧ c ∉ ['x', 'X'] := by
  intro c hc
  rcases List.mem_append.mp hc with hc | hc
  · refine ⟨?_, fun mem => ?_⟩
    · rcases h.chars c hc with digit | sign
      · exact isIdentPart_of_isDigit digit
      · simp only [List.mem_cons, List.not_mem_nil, or_false] at sign
        rcases sign with rfl | rfl <;> decide
    · simp only [List.mem_cons, List.not_mem_nil, or_false] at mem
      rcases mem with rfl | rfl <;> exact h.not_mem (by decide) hc
  · obtain ⟨part, -, other⟩ := suffix_letter (hs c hc)
    exact ⟨part, other⟩

theorem head_ne_x_of_parts {cs : List Char}
    (h : ∀ c ∈ cs, isIdentPart c = true ∧ c ∉ ['x', 'X']) :
    ∀ x ∈ cs.head?, x ≠ 'x' ∧ x ≠ 'X' := by
  intro x hx
  simpa using (h x (List.mem_of_mem_head? hx)).2

theorem Numeral.tokens_reads (h : Numeral n text)
    (hs : ∀ c ∈ suffix, isIntSuffixLetter c = true) :
    Reads n [(.int n, 0)] (tokens (text ++ suffix)) := by
  have parts := h.parts hs
  have read := h.numberToken_reads hs 0
  obtain ⟨c, cs, rfl, digit⟩ := h.exists_cons
  rw [List.cons_append] at parts read ⊢
  obtain ⟨-, later⟩ := List.forall_mem_cons.mp parts
  have noHex := startsHex_of_head c (head_ne_x_of_parts later)
  have nothing : Ends [] := nofun
  have span := numberSpan_parts (fun d hd => (later d hd).1) nothing
    (startsBinary (c :: (cs ++ suffix))) c
  rw [List.append_nil] at span
  refine Lexer.tokens_reads (not_isAsciiBlank_of_isDigit digit) ?_
  rw [nextToken, if_neg (by simp [noHex]), if_pos (by simp [digit]), number, span]
  exact read.map fun t => (t, [])

end Numeral

/-! ## Hexadecimal literals -/

section Hexadecimal

variable {n : Nat} {digits suffix : List Char}

/-- The reader of marked literals reads up to the closing quote, and drops a suffix after it. -/
theorem hexLiteral_eq (hex : ∀ c ∈ digits, isHexDigit c = true) (offset : Nat) (rest : List Char) :
    hexLiteral offset (digits ++ '\'' :: rest) =
      (match unsigned128? 16 digits with
        | some v => wordToken v
        | none => .error (.malformed offset (.invalidHexDigits (String.ofList digits)))) >>=
        fun t => .ok (t, rest.dropWhile isIntSuffixLetter) := by
  have noQuote : '\'' ∉ digits := fun mem => absurd (hex _ mem) (by decide)
  rw [hexLiteral, takeWhile_ne noQuote, dropWhile_ne noQuote]
  -- digits do not begin with a sign, so they are read as they stand
  cases digits with
  | nil => rfl
  | cons d ds =>
    have unsigned : d ≠ '+' := by
      rintro rfl
      exact absurd (hex '+' List.mem_cons_self) (by decide)
    simp only [List.cons.injEq, unsigned, false_and, imp_self, implies_true]
    cases unsigned128? 16 (d :: ds) <;> rfl

theorem tokens_hexadecimal (hex : ∀ c ∈ digits, isHexDigit c = true)
    (value : digits? 16 digits = some n) (hs : ∀ c ∈ suffix, isIntSuffixLetter c = true) :
    Reads n [(.int n, 0)] (tokens ('0' :: 'x' :: '\'' :: (digits ++ '\'' :: suffix))) := by
  have dropped : suffix.dropWhile isIntSuffixLetter = [] := List.dropWhile_eq_nil_iff.mpr hs
  refine tokens_reads (by decide) ?_
  rw [nextToken, if_pos (by rfl), List.drop_succ_cons, List.drop_succ_cons, List.drop_zero,
    hexLiteral_eq hex, dropped]
  exact (unsigned128?_reads value _).bind rfl

end Hexadecimal

end Lexer

/-! ## Literals -/

/-- The literals of a natural without their suffix: the numerals, and the digits in base sixteen,
of either case, after `0x` or `0X` and any zeros. -/
inductive Literal (n : Nat) : List Char → Prop where
  | numeral {text : List Char} (h : Lexer.Numeral n text) : Literal n text
  | hexadecimal {sign : Char} (h : sign ∈ ['x', 'X']) (zeros : Nat) {digits : List Char}
      (spelled : digits.map Char.toLower = Nat.toDigits 16 n) :
    Literal n ('0' :: sign :: (List.replicate zeros '0' ++ digits))

namespace HexShield

theorem shieldFrom_inside {cs : List Char} (h : ∀ c ∈ cs, isIdentPart c = true) :
    shieldFrom true cs = cs := by
  have word := shieldFrom_word h []
  rwa [List.append_nil, shieldFrom, List.append_nil] at word

section Suffix

variable {n : Nat} {text suffix : List Char}

/-- Marking leaves a numeral as it is. -/
theorem shieldFrom_numeral (h : Lexer.Numeral n text)
    (hs : ∀ c ∈ suffix, Lexer.isIntSuffixLetter c = true) :
    shieldFrom false (text ++ suffix) = text ++ suffix := by
  have parts := h.parts hs
  obtain ⟨c, cs, rfl, digit⟩ := h.exists_cons
  rw [List.cons_append] at parts ⊢
  obtain ⟨-, later⟩ := List.forall_mem_cons.mp parts
  rw [shieldFrom_cons (.inr (.inr (Lexer.head_ne_x_of_parts later))),
    isWord_of_part (Lexer.isIdentPart_of_isDigit digit),
    shieldFrom_inside fun d hd => (later d hd).1]

/-- Marking puts the digits of a hexadecimal literal between quotes. -/
theorem shieldFrom_hexadecimal {sign : Char} (h : sign ∈ ['x', 'X']) {digits : List Char}
    (hex : ∀ c ∈ digits, isHexDigit c = true) (nonempty : digits ≠ [])
    (hs : ∀ c ∈ suffix, Lexer.isIntSuffixLetter c = true) :
    shieldFrom false ('0' :: sign :: (digits ++ suffix)) =
      '0' :: 'x' :: '\'' :: (digits ++ '\'' :: suffix) := by
  have stops : ∀ c ∈ suffix.head?, isHexDigit c = false := fun c hc =>
    (Lexer.suffix_letter (hs c (List.mem_of_mem_head? hc))).2.1
  have mark : sign = 'x' ∨ sign = 'X' := by simpa using h
  rw [shieldFrom_literal mark nonempty hex stops,
    shieldFrom_inside fun c hc => (Lexer.suffix_letter (hs c hc)).1]

end Suffix

end HexShield

/-- The marked form of a literal with a suffix is one token, that of its number. -/
theorem Literal.tokens_reads {n : Nat} {text suffix : List Char} (h : Literal n text)
    (hs : ∀ c ∈ suffix, Lexer.isIntSuffixLetter c = true) :
    Lexer.Reads n [(.int n, 0)] (Lexer.tokens (HexShield.shieldFrom false (text ++ suffix))) := by
  cases h with
  | numeral h =>
    rw [HexShield.shieldFrom_numeral h hs]
    exact h.tokens_reads hs
  | @hexadecimal sign h zeros digits spelled =>
    have value := digits?_of_map_toLower (by decide) (by decide) zeros spelled
    have hex : ∀ c ∈ List.replicate zeros '0' ++ digits, isHexDigit c = true := by
      intro c hc
      rcases List.mem_append.mp hc with hc | hc
      · rw [List.eq_of_mem_replicate hc]
        decide
      · rw [← isHexDigit_toLower]
        exact isHexDigit_of_mem_toDigits (spelled ▸ List.mem_map_of_mem hc)
    have nonempty : List.replicate zeros '0' ++ digits ≠ [] := by
      intro none
      rw [none] at value
      cases value
    rw [List.cons_append, List.cons_append, HexShield.shieldFrom_hexadecimal h hex nonempty hs]
    exact Lexer.tokens_hexadecimal hex value hs

/-- A literal with a suffix is read as a whole expression. -/
theorem Literal.evaluate_reads (resolve : Resolver) {n : Nat} {text suffix : List Char}
    (h : Literal n text) (hs : ∀ c ∈ suffix, Lexer.isIntSuffixLetter c = true) :
    Lexer.Reads n (some (.int n)) (evaluate resolve (String.ofList (text ++ suffix))) := by
  rw [evaluate, HexShield.shield, evaluateShielded, String.toList_ofList, String.toList_ofList]
  exact (h.tokens_reads hs).bind rfl

/-- A number in decimal evaluates to itself. -/
theorem evaluate_decimal (resolve : Resolver) (n : Nat) (fits : n < 2 ^ 127) :
    evaluate resolve (String.ofList (Nat.toDigits 10 n)) = .ok (some (.int n)) := by
  have read := (Literal.numeral (.decimal (n := n))).evaluate_reads resolve (List.forall_mem_nil _)
  rw [List.append_nil] at read
  exact read.eq_ok fits

/-- A literal of any base, with any suffix, evaluates to its number if that fits the word, and is
an error otherwise. -/
theorem evaluate_literal (resolve : Resolver) {n : Nat} {text suffix : List Char}
    (h : Literal n text) (hs : ∀ c ∈ suffix, c ∈ ['u', 'U', 'l', 'L']) :
    (n < 2 ^ 127 →
      evaluate resolve (String.ofList (text ++ suffix)) = .ok (some (.int n))) ∧
    (2 ^ 127 ≤ n → ∃ e, evaluate resolve (String.ofList (text ++ suffix)) = .error e) := by
  have letters : ∀ c ∈ suffix, Lexer.isIntSuffixLetter c = true := by
    intro c hc
    simpa [Lexer.isIntSuffixLetter, or_assoc] using hs c hc
  have read := h.evaluate_reads resolve letters
  exact ⟨read.eq_ok, read.eq_error⟩

theorem evaluate_literal_limit :
    Literal 255 "0X00fF".toList ∧ (∀ c ∈ "uLl".toList, c ∈ ['u', 'U', 'l', 'L']) ∧
    evaluate (fun _ => none) "0X00fFuLl" = .ok (some (.int 255)) ∧
    Literal (2 ^ 127) "0x80000000000000000000000000000000".toList ∧
    ∃ e, evaluate (fun _ => none) "0x80000000000000000000000000000000uLl" = .error e := by
  have small : Literal 255 "0X00fF".toList :=
    @Literal.hexadecimal 255 'X' (by decide) 2 "fF".toList (by decide)
  have large : Literal (2 ^ 127) "0x80000000000000000000000000000000".toList :=
    @Literal.hexadecimal _ 'x' (by decide) 0 "80000000000000000000000000000000".toList
      (by decide +kernel)
  have letters : ∀ c ∈ "uLl".toList, c ∈ ['u', 'U', 'l', 'L'] := by simp
  exact ⟨small, letters, (evaluate_literal _ small letters).1 (by decide), large,
    (evaluate_literal _ large letters).2 (Nat.le_refl _)⟩

end ConstLookup
