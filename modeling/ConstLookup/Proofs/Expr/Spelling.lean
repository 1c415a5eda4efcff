import ConstLookup.Proofs.Expr.Grammar
import ConstLookup.Proofs.Expr.Numeral
import ConstLookup.Proofs.Text.Identifier
import ConstLookup.Proofs.Text.Runs
import Mathlib.Data.List.Basic

/-!
  The text of a tree evaluates to the value of the tree (`evaluate_spelled`).

  The lexer reads back the tokens of a spelled text (`tokens_spelled`): naturals in decimal,
  identifiers and marks, with blanks between them. No token runs into the next one, since no
  token takes a blank, and no text of such tokens holds a hexadecimal literal to be marked
  (`shield_spelled`). The rest is the grammar (`Eval.tokens_eval`).
-/

namespace ConstLookup

open ConstLookup.Text

/-- Tokens that the text tells apart from all others: naturals of the word, identifiers and
marks. -/
def Token.Plain : Token → Prop
  | .int v => ∃ n : Nat, v = n ∧ n < 2 ^ 127
  | .float _ => False
  | .ident w => isIdentifier w.toList = true
  | .mark _ => True

theorem ExprTree.plain_of_mem_tokens {t : ExprTree} {token : Token} (h : token ∈ t.tokens) :
    token.Plain := by
  have enclosed {needed : Bool} {ts : List Token} (h : token ∈ enclosed needed ts)
      (hts : token ∈ ts → token.Plain) : token.Plain := by
    cases needed with
    | false => exact hts h
    | true =>
      rcases List.mem_cons.mp h with rfl | h
      · trivial
      · rcases List.mem_append.mp h with h | h
        · exact hts h
        · rw [List.mem_singleton.mp h]
          trivial
  induction t with
  | literal v fits =>
    rw [List.mem_singleton.mp h]
    exact ⟨v, rfl, fits⟩
  | name n =>
    rw [List.mem_singleton.mp h]
    exact n.identifier
  | unary op t ih =>
    rcases List.mem_cons.mp h with rfl | h
    · trivial
    · exact enclosed h ih
  | binary op l r ihl ihr =>
    rcases List.mem_append.mp h with h | h
    · exact enclosed h ihl
    · rcases List.mem_cons.mp h with rfl | h
      · trivial
      · exact enclosed h ihr
  | conditional c a b ihc iha ihb =>
    rcases List.mem_append.mp h with h | h
    · rcases List.mem_append.mp h with h | h
      · exact enclosed h ihc
      · rcases List.mem_cons.mp h with rfl | h
        · trivial
        · exact iha h
    · rcases List.mem_cons.mp h with rfl | h
      · trivial
      · exact ihb h

/-! ## Blanks end tokens -/

/-- The text ends or goes on with a blank. -/
def Ends (rest : List Char) : Prop := ∀ c ∈ rest.head?, isAsciiBlank c = true

/-- What the lexer looks for is no blank. -/
theorem blank_cases {p : Char → Prop} {c : Char} (h : isAsciiBlank c = true)
    (hp : p ' ' ∧ p '\t' ∧ p '\n' ∧ p '\x0c' ∧ p '\r') : p c := by
  simp only [isAsciiBlank, Bool.or_eq_true, decide_eq_true_eq] at h
  obtain ⟨h1, h2, h3, h4, h5⟩ := hp
  rcases h with (((rfl | rfl) | rfl) | rfl) | rfl <;> assumption

theorem isIdentPart_of_blank {c : Char} (h : isAsciiBlank c = true) : isIdentPart c = false :=
  blank_cases (p := fun c => isIdentPart c = false) h (by decide)

theorem ends_blanks {blanks : List Char} (apart : blanks ≠ [])
    (blank : ∀ c ∈ blanks, isAsciiBlank c = true) (cs : List Char) : Ends (blanks ++ cs) := by
  obtain ⟨b, bs, rfl⟩ := List.exists_cons_of_ne_nil apart
  intro c hc
  exact blank c (Option.some.inj hc ▸ List.mem_cons_self)

section Ends

variable {rest : List Char}

theorem Ends.noPart (h : Ends rest) : ∀ c ∈ rest.head?, isIdentPart c = false :=
  fun c hc => isIdentPart_of_blank (h c hc)

/-- A text that a longer text starts with lies before the first character that it does not
hold. -/
theorem isPrefixOf_append {p : List Char} (apart : ∀ c ∈ rest.head?, c ∉ p) (l : List Char) :
    p.isPrefixOf (l ++ rest) = p.isPrefixOf l := by
  induction p generalizing l with
  | nil => rfl
  | cons a p ih =>
    cases l with
    | nil =>
      cases rest with
      | nil => rfl
      | cons c cs =>
        have : a ≠ c := fun same => apart c rfl (same ▸ List.mem_cons_self)
        simp [List.isPrefixOf, this]
    | cons b l =>
      simp only [List.cons_append, List.isPrefixOf]
      rw [ih fun c hc mem => apart c hc (List.mem_cons_of_mem a mem)]

end Ends

/-! ## Marks -/

namespace Lexer

theorem mark?_append {l rest : List Char}
    (same : ∀ m : Mark, m.text.toList.isPrefixOf (l ++ rest) = m.text.toList.isPrefixOf l) :
    mark? (l ++ rest) = (mark? l).map fun p => (p.1, p.2 ++ rest) := by
  unfold mark?
  induction Mark.all with
  | nil => rfl
  | cons m ms ih =>
    simp only [List.findSome?_cons, same m]
    by_cases hp : m.text.toList.isPrefixOf l = true
    · have le := (List.isPrefixOf_iff_prefix.mp hp).length_le
      simp only [hp, if_true, Option.map_some, List.drop_append_of_le_length le]
    · simp only [hp]
      exact ih

/-- No mark holds a blank. -/
theorem mark_apart {rest : List Char} (h : Ends rest) (m : Mark) :
    ∀ c ∈ rest.head?, c ∉ m.text.toList := by
  have all : m.text.toList.all (fun c => !isAsciiBlank c) = true := by cases m <;> rfl
  intro c hc mem
  have blank := List.all_eq_true.mp all c mem
  rw [h c hc] at blank
  cases blank

theorem startsHex_of_ne {c : Char} (h : c ≠ '0') (cs : List Char) :
    startsHex (c :: cs) = false := by
  unfold startsHex
  split
  · next e => exact absurd (List.cons.inj e).1 h
  · rfl

/-- A hexadecimal literal has an `x` after its first zero. -/
theorem startsHex_of_head (c : Char) {cs : List Char} (h : ∀ x ∈ cs.head?, x ≠ 'x' ∧ x ≠ 'X') :
    startsHex (c :: cs) = false := by
  unfold startsHex
  split
  · next e =>
    obtain ⟨h1, h2⟩ := h _ (by rw [(List.cons.inj e).2]; rfl)
    simp [h1, h2]
  · rfl

theorem nextToken_mark (m : Mark) {rest : List Char} (h : Ends rest) (offset : Nat) :
    ∃ c cs, m.text.toList = c :: cs ∧ isAsciiBlank c = false ∧
      nextToken offset c (cs ++ rest) = .ok (.mark m, rest) := by
  have first : ∃ c cs, m.text.toList = c :: cs ∧ isAsciiBlank c = false ∧
      c ≠ '0' ∧ isDigit c = false ∧ c ≠ '.' ∧ c ≠ '\'' ∧ c ≠ '"' ∧ isIdentStart c = false ∧
      mark? (c :: cs) = some (m, []) := by
    cases m <;> exact ⟨_, _, rfl, by decide⟩
  obtain ⟨c, cs, ht, blank, h0, h1, h2, h3, h4, h5, hm⟩ := first
  refine ⟨c, cs, ht, blank, ?_⟩
  have noHex := startsHex_of_ne h0 (cs ++ rest)
  have read := mark?_append (l := c :: cs) fun m => isPrefixOf_append (mark_apart h m) _
  rw [hm, List.cons_append] at read
  simp [nextToken, noHex, h1, h2, h3, h4, h5, read]

/-! ## Identifiers -/

theorem not_isDigit_of_isIdentStart {c : Char} (h : isIdentStart c = true) :
    isDigit c = false := by
  simp only [isIdentStart, isAsciiLetter, Bool.or_eq_true, Bool.and_eq_true,
    decide_eq_true_eq, Char.le_def, UInt32.le_iff_toNat_le] at h
  rw [Bool.eq_false_iff]
  simp only [isDigit, ne_eq, Bool.and_eq_true, decide_eq_true_eq, Char.le_def,
    UInt32.le_iff_toNat_le, not_and]
  rintro -
  rcases h with (⟨h, -⟩ | ⟨h, -⟩) | rfl
  · change 65 ≤ c.val.toNat at h
    change ¬ c.val.toNat ≤ 57
    omega
  · change 97 ≤ c.val.toNat at h
    change ¬ c.val.toNat ≤ 57
    omega
  · decide

theorem ident_text {w : String} (hw : isIdentifier w.toList = true) :
    ∃ c cs, w.toList = c :: cs ∧ isIdentStart c = true ∧ ∀ d ∈ cs, isIdentPart d = true := by
  match ht : w.toList with
  | [] => rw [ht] at hw; cases hw
  | c :: cs =>
    rw [ht, isIdentifier, Bool.and_eq_true, List.all_eq_true] at hw
    exact ⟨c, cs, rfl, hw⟩

theorem nextToken_ident {w : String} (hw : isIdentifier w.toList = true) {rest : List Char}
    (h : ∀ c ∈ rest.head?, isIdentPart c = false) (offset : Nat) :
    ∃ c cs, w.toList = c :: cs ∧ isAsciiBlank c = false ∧
      nextToken offset c (cs ++ rest) = .ok (.ident w, rest) := by
  obtain ⟨c, cs, ht, start, part⟩ := ident_text hw
  have ne {d : Char} (hd : isIdentStart d = false) : c ≠ d := by
    rintro rfl
    rw [hd] at start
    cases start
  have blank : isAsciiBlank c = false := by
    rw [Bool.eq_false_iff]
    exact fun h => blank_cases (p := fun d => c ≠ d) h
      ⟨ne (by decide), ne (by decide), ne (by decide), ne (by decide), ne (by decide)⟩ rfl
  have h0 : c ≠ '0' := ne (by decide)
  have h1 : isDigit c = false := not_isDigit_of_isIdentStart start
  have h2 : c ≠ '.' := ne (by decide)
  have h3 : c ≠ '\'' := ne (by decide)
  have h4 : c ≠ '"' := ne (by decide)
  refine ⟨c, cs, ht, blank, ?_⟩
  have noHex := startsHex_of_ne h0 (cs ++ rest)
  have taken : (cs ++ rest).takeWhile isIdentPart = cs := takeWhile_run part h
  have dropped : (cs ++ rest).dropWhile isIdentPart = rest := dropWhile_run part h
  have spelled : String.ofList (c :: cs) = w := by rw [← ht, String.ofList_toList]
  simp [nextToken, noHex, h1, h2, h3, h4, start, taken, dropped, spelled]

/-! ## Naturals -/

theorem not_isAsciiBlank_of_isDigit {c : Char} (h : isDigit c = true) :
    isAsciiBlank c = false := by
  rw [Bool.eq_false_iff]
  intro blank
  have other := blank_cases (p := fun d => isDigit d = false) blank (by decide)
  rw [h] at other
  cases other

theorem isIdentPart_of_isDigit {c : Char} (h : isDigit c = true) : isIdentPart c = true := by
  simp [isIdentPart, h]

/-- The scanner of numbers takes letters, digits and underscores up to a blank. -/
theorem numberSpan_parts {cs rest : List Char} (hcs : ∀ c ∈ cs, isIdentPart c = true)
    (h : Ends rest) (binary : Bool) (previous : Char) :
    numberSpan binary previous (cs ++ rest) = (cs, rest) := by
  induction cs generalizing previous with
  | nil =>
    cases rest with
    | nil => rfl
    | cons b r =>
      have ends : isIdentPart b = false ∧ b ≠ '.' ∧ b ≠ '+' ∧ b ≠ '-' :=
        blank_cases (p := fun b => isIdentPart b = false ∧ b ≠ '.' ∧ b ≠ '+' ∧ b ≠ '-')
          (h b rfl) (by decide)
      simp [numberSpan, ends]
  | cons c cs ih =>
    simp [numberSpan, hcs c List.mem_cons_self, ih fun d hd => hcs d (List.mem_cons_of_mem c hd)]

theorem numberToken_toDigits {n : Nat} (h : n < 2 ^ 127) (offset : Nat) :
    numberToken offset (Nat.toDigits 10 n) = .ok (.int n) := by
  have read := Numeral.decimal.numberToken_reads (n := n) (List.forall_mem_nil _) offset
  rw [List.append_nil] at read
  exact read.eq_ok h

/-- After a digit of a numeral comes no letter that would make it hexadecimal. -/
theorem head_ne_x {cs rest : List Char} (hcs : ∀ c ∈ cs, isDigit c = true) (h : Ends rest) :
    ∀ x ∈ (cs ++ rest).head?, x ≠ 'x' ∧ x ≠ 'X' := by
  intro x hx
  cases cs with
  | nil => exact blank_cases (p := fun x => x ≠ 'x' ∧ x ≠ 'X') (h x hx) (by decide)
  | cons c cs =>
    obtain rfl := Option.some.inj hx
    have hc := hcs c List.mem_cons_self
    constructor <;> rintro rfl <;> exact absurd hc (by decide)

theorem int_text (n : Nat) :
    ∃ c cs, Nat.toDigits 10 n = c :: cs ∧ (Token.int n).text.toList = c :: cs ∧
      ∀ d ∈ c :: cs, isDigit d = true := by
  obtain ⟨c, cs, hcs⟩ := List.exists_cons_of_ne_nil (Nat.toDigits_ne_nil (n := n) (b := 10))
  exact ⟨c, cs, hcs, Nat.toList_repr.trans hcs, fun d hd => isDigit_of_mem_toDigits (hcs ▸ hd)⟩

theorem nextToken_int {n : Nat} (hn : n < 2 ^ 127) {rest : List Char} (h : Ends rest)
    (offset : Nat) :
    ∃ c cs, (Token.int n).text.toList = c :: cs ∧ isAsciiBlank c = false ∧
      nextToken offset c (cs ++ rest) = .ok (.int n, rest) := by
  obtain ⟨c, cs, hcs, text, digits⟩ := int_text n
  have token := numberToken_toDigits hn offset
  rw [hcs] at token
  have hc := digits c List.mem_cons_self
  have hds : ∀ d ∈ cs, isDigit d = true := fun d hd => digits d (List.mem_cons_of_mem c hd)
  have blank := not_isAsciiBlank_of_isDigit hc
  have noHex := startsHex_of_head c (head_ne_x hds h)
  refine ⟨c, cs, text, blank, ?_⟩
  have span := numberSpan_parts (fun d hd => isIdentPart_of_isDigit (hds d hd)) h
  simp [nextToken, noHex, hc, number, span, token, Except.map]

/-! ## Texts of tokens -/

theorem nextToken_plain {t : Token} (ht : t.Plain) {rest : List Char} (h : Ends rest)
    (offset : Nat) :
    ∃ c cs, t.text.toList = c :: cs ∧ isAsciiBlank c = false ∧
      nextToken offset c (cs ++ rest) = .ok (t, rest) := by
  match t, ht with
  | .int v, ht =>
    obtain ⟨n, rfl, hn⟩ := ht
    exact nextToken_int hn h offset
  | .ident w, ht => exact nextToken_ident ht h.noPart offset
  | .mark m, _ => exact nextToken_mark m h offset

theorem tokensFrom_blanks {blanks rest : List Char} (hb : ∀ c ∈ blanks, isAsciiBlank c = true)
    {steps : Nat} (hs : (blanks ++ rest).length ≤ steps) (offset : Nat) :
    ∃ steps' offset', rest.length ≤ steps' ∧
      tokensFrom steps offset (blanks ++ rest) = tokensFrom steps' offset' rest := by
  induction blanks generalizing steps offset with
  | nil => exact ⟨steps, offset, hs, rfl⟩
  | cons c blanks ih =>
    cases steps with
    | zero => simp at hs
    | succ steps =>
      rw [List.cons_append, tokensFrom, if_pos (hb c List.mem_cons_self)]
      refine ih (fun d hd => hb d (List.mem_cons_of_mem c hd)) ?_ _
      simpa using hs

theorem tokensFrom_nil (steps offset : Nat) : tokensFrom steps offset [] = .ok [] := by
  cases steps <;> rfl

/-- A text that begins with a token, and the tokens after it. -/
theorem tokensFrom_next {t : Token} {c : Char} {cs rest : List Char} (blank : isAsciiBlank c = false)
    (shorter : rest.length ≤ cs.length) {steps : Nat} (hs : (c :: cs).length ≤ steps) {offset : Nat}
    (next : nextToken offset c cs = .ok (t, rest)) :
    ∃ steps' offset', rest.length ≤ steps' ∧
      tokensFrom steps offset (c :: cs) =
        (tokensFrom steps' offset' rest).map fun l => (t, offset) :: l := by
  cases steps with
  | zero => simp at hs
  | succ steps =>
    refine ⟨steps, offset + (byteLength (c :: cs) - byteLength rest), ?_, ?_⟩
    · rw [List.length_cons] at hs
      omega
    · rw [tokensFrom, if_neg (by simp [blank]), next]
      rfl

/-- The first token of a text, and the tokens after it. -/
theorem tokensFrom_plain {t : Token} (ht : t.Plain) {rest : List Char} (h : Ends rest)
    {steps : Nat} (hs : (t.text.toList ++ rest).length ≤ steps) (offset : Nat) :
    ∃ steps' offset', rest.length ≤ steps' ∧
      tokensFrom steps offset (t.text.toList ++ rest) =
        (tokensFrom steps' offset' rest).map fun l => (t, offset) :: l := by
  obtain ⟨c, cs, text, blank, next⟩ := nextToken_plain ht h offset
  rw [text, List.cons_append] at hs ⊢
  exact tokensFrom_next blank (by simp) hs next

theorem tokensFrom_spelled {ts : List Token} {cs : List Char} (h : Spells ts cs)
    (plain : ∀ t ∈ ts, t.Plain) {steps : Nat} (hs : cs.length ≤ steps) (offset : Nat) :
    ∃ l, tokensFrom steps offset cs = .ok l ∧ l.map Prod.fst = ts := by
  induction h generalizing steps offset with
  | single t =>
    have ends : Ends [] := nofun
    rw [← List.append_nil t.text.toList] at hs ⊢
    obtain ⟨steps', offset', -, e⟩ :=
      tokensFrom_plain (plain t List.mem_cons_self) ends hs offset
    rw [e, tokensFrom_nil]
    exact ⟨_, rfl, rfl⟩
  | @cons t ts blanks cs apart blank rest ih =>
    rw [List.append_assoc] at hs ⊢
    obtain ⟨steps', offset', hs', e⟩ :=
      tokensFrom_plain (plain t List.mem_cons_self) (ends_blanks apart blank _) hs offset
    obtain ⟨steps'', offset'', hs'', e'⟩ := tokensFrom_blanks blank hs' offset'
    obtain ⟨l, hl, hts⟩ := ih (fun u hu => plain u (List.mem_cons_of_mem t hu)) hs'' offset''
    rw [e, e', hl]
    exact ⟨_, rfl, congrArg (t :: ·) hts⟩

/-- The lexer reads back the tokens of a text. -/
theorem tokens_spelled {ts : List Token} {cs : List Char} (h : Spells ts cs)
    (plain : ∀ t ∈ ts, t.Plain) : ∃ l, tokens cs = .ok l ∧ l.map Prod.fst = ts :=
  tokensFrom_spelled h plain (Nat.le_refl _) 0

end Lexer

/-! ## Hexadecimal literals -/

namespace HexShield

/-- A text that does not go on after a zero begins with another character or is the zero alone. -/
theorem ne_zero_or_nil {c : Char} {cs : List Char} (other : ∀ x ys, c = '0' → cs = x :: ys → False) :
    c ≠ '0' ∨ cs = [] := by
  cases cs with
  | nil => exact .inr rfl
  | cons x ys => exact .inl fun zero => other x ys zero rfl

/-- A character is copied unless it begins a literal: a zero at the start of a word, with an `x`
and a hexadecimal digit after it. -/
theorem shieldFrom_copies {inWord : Bool} {c : Char} {cs : List Char}
    (h : inWord = true ∨ c ≠ '0' ∨ ∀ x ys, cs = x :: ys → x = 'x' ∨ x = 'X' →
      ∀ d ∈ ys.head?, isHexDigit d = false) :
    shieldFrom inWord (c :: cs) = c :: shieldFrom (isWord c) cs := by
  rw [shieldFrom.eq_def]
  split
  · next e => cases e
  · next x ys e =>
    cases e
    rw [if_neg]
    · rfl
    · rcases h with rfl | h | h
      · simp
      · exact absurd rfl h
      · by_cases hx : x = 'x' ∨ x = 'X'
        · simp [takeWhile_isEmpty.mpr (h x ys rfl hx)]
        · simp only [not_or] at hx
          simp [hx]
  · next e => cases e; rfl

/-- A zero without an `x` after it begins no literal. -/
theorem shieldFrom_cons {inWord : Bool} {c : Char} {cs : List Char}
    (h : inWord = true ∨ c ≠ '0' ∨ ∀ x ∈ cs.head?, x ≠ 'x' ∧ x ≠ 'X') :
    shieldFrom inWord (c :: cs) = c :: shieldFrom (isWord c) cs := by
  refine shieldFrom_copies (h.imp_right (Or.imp_right fun head x ys same mark => ?_))
  obtain ⟨lower, upper⟩ := head x (same ▸ rfl)
  exact (mark.elim lower upper).elim

/-- A literal is marked with all its digits, and the text after it goes on behind a word. -/
theorem shieldFrom_literal {x : Char} (mark : x = 'x' ∨ x = 'X') {digits rest : List Char}
    (nonempty : digits ≠ []) (hex : ∀ c ∈ digits, isHexDigit c = true)
    (maximal : ∀ c ∈ rest.head?, isHexDigit c = false) :
    shieldFrom false ('0' :: x :: (digits ++ rest)) =
      '0' :: 'x' :: '\'' :: (digits ++ '\'' :: shieldFrom true rest) := by
  rw [shieldFrom, takeWhile_run hex maximal, dropWhile_run hex maximal, if_pos]
  simpa [nonempty] using mark

/-- No literal of the text is to be marked, whatever stands before it. -/
def Untouched (cs : List Char) : Prop := ∀ inWord, shieldFrom inWord cs = cs

theorem untouched_nil : Untouched [] := fun _ => by rw [shieldFrom]

theorem Untouched.cons {c : Char} {cs : List Char} (h : Untouched cs) (hc : c ≠ '0') :
    Untouched (c :: cs) := fun inWord => by rw [shieldFrom_cons (.inr (.inl hc)), h]

theorem Untouched.append {cs rest : List Char} (h : Untouched rest) (hcs : ∀ c ∈ cs, c ≠ '0') :
    Untouched (cs ++ rest) := by
  induction cs with
  | nil => exact h
  | cons c cs ih =>
    exact (ih fun d hd => hcs d (List.mem_cons_of_mem c hd)).cons (hcs c List.mem_cons_self)

/-- Inside of a word nothing is marked. -/
theorem shieldFrom_word {cs : List Char} (hcs : ∀ c ∈ cs, isIdentPart c = true)
    (rest : List Char) : shieldFrom true (cs ++ rest) = cs ++ shieldFrom true rest := by
  induction cs with
  | nil => rfl
  | cons c cs ih =>
    rw [List.cons_append, shieldFrom_cons (.inl rfl), isWord_of_part (hcs c List.mem_cons_self),
      ih fun d hd => hcs d (List.mem_cons_of_mem c hd)]
    rfl

/-- An identifier holds no literal. -/
theorem shieldFrom_ident {w : List Char} (hw : isIdentifier w = true) (inWord : Bool)
    (rest : List Char) : shieldFrom inWord (w ++ rest) = w ++ shieldFrom true rest := by
  cases w with
  | nil => cases hw
  | cons c cs =>
    obtain ⟨start, part⟩ := Bool.and_eq_true_iff.mp hw
    have hc : c ≠ '0' := by rintro rfl; cases start
    rw [List.cons_append, shieldFrom_cons (.inr (.inl hc)),
      isWord_of_part (isIdentPart_of_isIdentStart start),
      shieldFrom_word (List.all_eq_true.mp part)]
    rfl

theorem Untouched.token {t : Token} (ht : t.Plain) {rest : List Char} (ends : Ends rest)
    (h : Untouched rest) : Untouched (t.text.toList ++ rest) := by
  match t, ht with
  | .int v, ht =>
    obtain ⟨n, rfl, hn⟩ := ht
    obtain ⟨c, cs, -, text, digits⟩ := Lexer.int_text n
    rw [text, List.cons_append]
    intro inWord
    have part : ∀ d ∈ c :: cs, isIdentPart d = true := fun d hd =>
      Lexer.isIdentPart_of_isDigit (digits d hd)
    have noHex := Lexer.head_ne_x (fun d hd => digits d (List.mem_cons_of_mem c hd)) ends
    rw [shieldFrom_cons (.inr (.inr noHex)), isWord_of_part (part c List.mem_cons_self),
      shieldFrom_word fun d hd => part d (List.mem_cons_of_mem c hd), h true]
  | .ident w, ht =>
    intro inWord
    exact (shieldFrom_ident ht inWord rest).trans (congrArg (w.toList ++ ·) (h true))
  | .mark m, _ =>
    refine h.append ?_
    have all : m.text.toList.all (fun c => c ≠ '0') = true := by cases m <;> rfl
    exact fun c hc => of_decide_eq_true (List.all_eq_true.mp all c hc)

theorem untouched_spelled {ts : List Token} {cs : List Char} (h : Spells ts cs)
    (plain : ∀ t ∈ ts, t.Plain) : Untouched cs := by
  induction h with
  | single t =>
    rw [← List.append_nil t.text.toList]
    exact untouched_nil.token (plain t List.mem_cons_self) nofun
  | @cons t ts blanks cs apart blank rest ih =>
    rw [List.append_assoc]
    have later := ih fun u hu => plain u (List.mem_cons_of_mem t hu)
    refine Untouched.token (plain t List.mem_cons_self) (ends_blanks apart blank _) ?_
    exact later.append fun c hc => by rintro rfl; exact absurd (blank _ hc) (by decide)

/-- Marking leaves the text of tokens as it is. -/
theorem shield_spelled {ts : List Token} {s : String} (h : Spells ts s.toList)
    (plain : ∀ t ∈ ts, t.Plain) : shield s = s := by
  rw [shield, untouched_spelled h plain, String.ofList_toList]

end HexShield

/-! ## Evaluation of a spelled tree -/

/-- A text of a tree, with the parentheses that the binding strengths demand, evaluates to the
value of the tree, or operands are nested too deeply; and up to a height of 40 they are not. -/
theorem evaluate_spelled (resolve : Resolver) (t : ExprTree) {text : String}
    (h : Spells t.tokens text.toList) :
    (evaluate resolve text = (t.eval resolve).map some ∨
      evaluate resolve text = .error .tooDeep) ∧
    (t.height ≤ 40 → evaluate resolve text = (t.eval resolve).map some ∧
      evaluate resolve text ≠ .error .tooDeep) := by
  obtain ⟨ts, hts, same⟩ := Lexer.tokens_spelled h fun _ => ExprTree.plain_of_mem_tokens
  have e : evaluate resolve text = Eval.tokens resolve ts := by
    rw [evaluate, HexShield.shield_spelled h fun _ => ExprTree.plain_of_mem_tokens,
      evaluateShielded, hts]
    rfl
  have shallow : (t.eval resolve).map some ≠ .error .tooDeep := fun hd =>
    (t.eval_ne_tooDeep resolve).map some _ hd rfl
  rw [e]
  rcases Eval.tokens_eval resolve t same with value | ⟨deep, lt⟩
  · exact ⟨.inl value, fun _ => ⟨value, value ▸ shallow⟩⟩
  · refine ⟨.inr deep, fun height => absurd lt ?_⟩
    unfold Eval.maxDepth
    omega

/-- The tree of `- 2 ## 3 * ( 1 + A )`: pasting binds tighter than the sign. -/
def pasted : ExprTree :=
  .binary .mul (.unary .negate (.binary .paste (.literal 2 (by decide)) (.literal 3 (by decide))))
    (.binary .add (.literal 1 (by decide))
      (.name ⟨"A", by decide, by decide, by decide, by decide⟩))

theorem evaluate_pasted :
    Spells pasted.tokens "- 2 ## 3 * ( 1 + A )".toList ∧ pasted.height ≤ 40 ∧
      evaluate (fun _ => some (.int 4)) "- 2 ## 3 * ( 1 + A )" = .ok (some (.int (-115))) := by
  have text : "- 2 ## 3 * ( 1 + A )".toList = spell pasted.tokens := rfl
  have spelled : Spells pasted.tokens "- 2 ## 3 * ( 1 + A )".toList := by
    rw [text]
    exact spells_spell nofun
  have height : pasted.height ≤ 40 := by decide
  refine ⟨spelled, height, ?_⟩
  rw [((evaluate_spelled _ pasted spelled).2 height).1]
  rfl

end ConstLookup
