import ConstLookup.Expr.Lexer
import ConstLookup.Proofs.Text.Digits
import ConstLookup.Proofs.Text.Lines
import Mathlib.Algebra.Group.Nat.Defs

/-!
  Numerals of the three bases that the scanner of numbers reads. With any suffix they are tokens of
  their number, if it is less than `2 ^ 127`, and errors otherwise (`Numeral.numberToken_reads`):
  a longer number is refused when its digits are read, or as a value.
-/

namespace ConstLookup.Lexer

open ConstLookup.Text

/-! ## Naturals of the word -/

/-- The result is the one for a natural of the word, and an error for any larger natural. -/
structure Reads {α : Type} (n : Nat) (value : α) (r : Except EvalError α) : Prop where
  eq_ok : n < 2 ^ 127 → r = .ok value
  eq_error : 2 ^ 127 ≤ n → ∃ e, r = .error e

section Reads

variable {α β : Type} {n : Nat} {a : α} {r : Except EvalError α}

theorem Reads.bind (h : Reads n a r) {f : α → Except EvalError β} {b : β} (hf : f a = .ok b) :
    Reads n b (r >>= f) where
  eq_ok fits := by rw [h.eq_ok fits]; exact hf
  eq_error large := by
    obtain ⟨e, error⟩ := h.eq_error large
    exact ⟨e, by rw [error]; rfl⟩

theorem Reads.map (h : Reads n a r) (f : α → β) : Reads n (f a) (r.map f) where
  eq_ok fits := by rw [h.eq_ok fits]; rfl
  eq_error large := by
    obtain ⟨e, error⟩ := h.eq_error large
    exact ⟨e, by rw [error]; rfl⟩

end Reads

theorem wordToken_reads (n : Nat) : Reads n (.int n) (wordToken n) where
  eq_ok fits := if_pos fits
  eq_error large := ⟨_, if_neg (Nat.not_lt.mpr large)⟩

/-- Digits of too large a number are refused, with an error that the caller chooses. -/
theorem unsigned128?_reads {radix n : Nat} {digits : List Char} (h : digits? radix digits = some n)
    (e : EvalError) :
    Reads n (.int n) (match unsigned128? radix digits with
      | some v => wordToken v
      | none => .error e) := by
  rw [unsigned128?, h, Option.filter_some, Nat.pow_eq]
  by_cases fits : n < 2 ^ 128
  · rw [decide_eq_true fits]
    exact wordToken_reads n
  · rw [decide_eq_false fits]
    have larger : 2 ^ 127 < 2 ^ 128 := Nat.pow_lt_pow_right (by decide) (by decide)
    exact ⟨fun small => absurd (Nat.lt_trans small larger) fits, fun _ => ⟨e, rfl⟩⟩

/-! ## Numerals -/

/-- The numerals of a natural in base ten, eight and two. The latter two may have zeros before
their digits. -/
inductive Numeral (n : Nat) : List Char → Prop where
  | decimal : Numeral n (Nat.toDigits 10 n)
  | octal (zeros : Nat) : Numeral n ('0' :: (List.replicate zeros '0' ++ Nat.toDigits 8 n))
  | binary {sign : Char} (h : sign ∈ ['b', 'B']) (zeros : Nat) :
    Numeral n ('0' :: sign :: (List.replicate zeros '0' ++ Nat.toDigits 2 n))

namespace Numeral

variable {n : Nat} {text : List Char}

theorem padded_digits {radix zeros : Nat} (pos : 0 < radix) (le : radix ≤ 10) :
    ∀ c ∈ List.replicate zeros '0' ++ Nat.toDigits radix n, isDigit c = true := by
  intro c hc
  rcases List.mem_append.mp hc with hc | hc
  · rw [List.eq_of_mem_replicate hc]
    decide
  · exact isDigit_of_mem_toDigits_le pos le hc

/-- The characters of numerals. -/
theorem chars (h : Numeral n text) : ∀ c ∈ text, isDigit c = true ∨ c ∈ ['b', 'B'] := by
  cases h with
  | decimal => exact fun c hc => .inl (isDigit_of_mem_toDigits hc)
  | octal zeros =>
    rw [List.forall_mem_cons]
    exact ⟨by decide, fun c hc => .inl (padded_digits (by decide) (by decide) c hc)⟩
  | binary sign zeros =>
    rw [List.forall_mem_cons, List.forall_mem_cons]
    exact ⟨by decide, .inr sign, fun c hc => .inl (padded_digits (by decide) (by decide) c hc)⟩

/-- A numeral begins with a digit. -/
theorem exists_cons (h : Numeral n text) : ∃ c cs, text = c :: cs ∧ isDigit c = true := by
  cases h with
  | decimal =>
    obtain ⟨c, cs, hcs⟩ := List.exists_cons_of_ne_nil (Nat.toDigits_ne_nil (n := n) (b := 10))
    exact ⟨c, cs, hcs, isDigit_of_mem_toDigits (hcs ▸ List.mem_cons_self)⟩
  | octal zeros => exact ⟨_, _, rfl, by decide⟩
  | binary sign zeros => exact ⟨_, _, rfl, by decide⟩

/-- A character that is neither a digit nor the sign of base two stands in no numeral. -/
theorem not_mem (h : Numeral n text) {c : Char} (hc : isDigit c = false ∧ c ∉ ['b', 'B']) :
    c ∉ text := by
  intro mem
  rcases h.chars c mem with digit | sign
  · rw [hc.1] at digit
    cases digit
  · exact hc.2 sign

end Numeral

/-! ## The base of a numeral -/

/-- The number that the text of an integer spells, in the base that its first characters tell. -/
def integer? : List Char → Option Nat
  | '0' :: 'b' :: ds | '0' :: 'B' :: ds => unsigned128? 2 ds
  | '0' :: d :: ds => unsigned128? 8 (d :: ds)
  | ds => unsigned128? 10 ds

/-- A text without a point and an exponent is the text of an integer, with a suffix. -/
theorem numberToken_of_integer {text : List Char} (point : '.' ∉ text) (lower : 'e' ∉ text)
    (upper : 'E' ∉ text) (offset : Nat) :
    numberToken offset text =
      match integer? (dropEndWhile isIntSuffixLetter text) with
      | some v => wordToken v
      | none => .error (.malformed offset (.invalidNumber (String.ofList text))) := by
  unfold numberToken
  simp only [List.contains_eq_mem, point, lower, upper, decide_false, Bool.or_self, Bool.and_false,
    Bool.false_eq_true, if_false]
  rfl

namespace Numeral

theorem integer?_decimal (n : Nat) :
    integer? (Nat.toDigits 10 n) = unsigned128? 10 (Nat.toDigits 10 n) := by
  -- only the numeral of zero starts with a zero, so it is read in base ten
  have base : ∀ d ds, Nat.toDigits 10 n ≠ '0' :: d :: ds := by
    intro d ds e
    rcases Nat.eq_zero_or_pos n with rfl | pos
    · cases e
    · exact head_toDigits pos (by rw [e]; rfl)
  unfold integer?
  split
  · next e => exact absurd e (base _ _)
  · next e => exact absurd e (base _ _)
  · next e => exact absurd e (base _ _)
  · rfl

theorem integer?_octal {d : Char} (hd : isDigit d = true) (ds : List Char) :
    integer? ('0' :: d :: ds) = unsigned128? 8 (d :: ds) := by
  unfold integer?
  split
  · next e =>
    obtain ⟨rfl, -⟩ := List.cons.inj (List.cons.inj e).2
    cases hd
  · next e =>
    obtain ⟨rfl, -⟩ := List.cons.inj (List.cons.inj e).2
    cases hd
  · next e => rw [(List.cons.inj e).2]
  · next other => exact absurd rfl (other d ds)

theorem integer?_binary {sign : Char} (h : sign ∈ ['b', 'B']) (ds : List Char) :
    integer? ('0' :: sign :: ds) = unsigned128? 2 ds := by
  simp only [List.mem_cons, List.not_mem_nil, or_false] at h
  rcases h with rfl | rfl <;> rfl

/-- The digits that a numeral is read from, in their base. -/
theorem exists_integer? {n : Nat} {text : List Char} (h : Numeral n text) :
    ∃ radix digits, integer? text = unsigned128? radix digits ∧ digits? radix digits = some n := by
  cases h with
  | decimal =>
    exact ⟨10, _, integer?_decimal n, digits?_toDigits (by decide) (by decide) 0 n⟩
  | octal zeros =>
    refine ⟨8, List.replicate zeros '0' ++ Nat.toDigits 8 n, ?_,
      digits?_toDigits (by decide) (by decide) zeros n⟩
    have digits : ∀ c ∈ List.replicate zeros '0' ++ Nat.toDigits 8 n, isDigit c = true :=
      padded_digits (by decide) (by decide)
    obtain ⟨d, ds, hds⟩ := List.exists_cons_of_ne_nil
      (List.append_ne_nil_of_right_ne_nil (List.replicate zeros '0')
        (Nat.toDigits_ne_nil (n := n) (b := 8)))
    rw [hds] at digits ⊢
    exact integer?_octal (digits d List.mem_cons_self) ds
  | binary sign zeros =>
    exact ⟨2, _, integer?_binary sign _, digits?_toDigits (by decide) (by decide) zeros n⟩

/-- A numeral with a suffix is read as its number. -/
theorem numberToken_reads {n : Nat} {text suffix : List Char} (h : Numeral n text)
    (hs : ∀ c ∈ suffix, isIntSuffixLetter c = true) (offset : Nat) :
    Reads n (.int n) (numberToken offset (text ++ suffix)) := by
  have no {c : Char} (hc : isDigit c = false ∧ c ∉ ['b', 'B'])
      (letter : isIntSuffixLetter c = false) : c ∉ text ++ suffix := by
    rw [List.mem_append, not_or]
    refine ⟨h.not_mem hc, fun mem => ?_⟩
    rw [hs c mem] at letter
    cases letter
  have body : dropEndWhile isIntSuffixLetter (text ++ suffix) = text := by
    rw [dropEndWhile_trail hs]
    refine dropEndWhile_eq_self fun c hc => ?_
    rw [Bool.eq_false_iff]
    intro letter
    simp only [isIntSuffixLetter, Bool.or_eq_true, decide_eq_true_eq] at letter
    have mem := List.mem_of_getLast? hc
    rcases letter with ((rfl | rfl) | rfl) | rfl <;> exact h.not_mem (by decide) mem
  obtain ⟨radix, digits, value, read⟩ := h.exists_integer?
  rw [numberToken_of_integer (no (by decide) (by decide)) (no (by decide) (by decide))
    (no (by decide) (by decide)), body, value]
  exact unsigned128?_reads read _

end Numeral

end ConstLookup.Lexer
