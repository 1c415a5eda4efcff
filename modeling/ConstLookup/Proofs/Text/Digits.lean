import ConstLookup.Text.Word

/-!
  Numerals in bases up to sixteen. Reading the digits of a number gives the number back
  (`digitsFrom?_toDigits`), after any zeros and with letters of either case; so distinct numbers
  have distinct numerals. The characters of decimal numerals are digits, and only zero starts with
  a zero.
-/

namespace ConstLookup.Text

/-! ## Digits -/

theorem digitValue?_digitChar {d : Nat} (h : d < 16) : digitValue? d.digitChar = some d := by
  revert d
  decide

theorem isHexDigit_digitChar {d : Nat} (h : d < 16) : isHexDigit d.digitChar = true := by
  revert d
  decide

/-- What holds of all capital letters holds of a character that `toLower` changes. -/
theorem toLower_cases {p : Char → Prop} {c : Char} (capital : ∀ n < 26, p (Char.ofNat (65 + n)))
    (other : c.toLower = c → p c) : p c := by
  by_cases h : c.val ≥ 'A'.val ∧ c.val ≤ 'Z'.val
  · have lower : 65 ≤ c.toNat := UInt32.le_iff_toNat_le.mp h.1
    have upper : c.toNat ≤ 90 := UInt32.le_iff_toNat_le.mp h.2
    have found := capital (c.toNat - 65) (by omega)
    rwa [show 65 + (c.toNat - 65) = c.toNat by omega, Char.ofNat_toNat] at found
  · exact other (dif_neg h)

/-- The case of a digit does not matter. -/
theorem digitValue?_toLower (c : Char) : digitValue? c.toLower = digitValue? c :=
  toLower_cases (p := fun c => digitValue? c.toLower = digitValue? c) (by decide) (by simp_all)

theorem isHexDigit_toLower (c : Char) : isHexDigit c.toLower = isHexDigit c :=
  toLower_cases (p := fun c => isHexDigit c.toLower = isHexDigit c) (by decide) (by simp_all)

theorem isDigit_of_mem_toDigits_le {radix n : Nat} {c : Char} (pos : 0 < radix)
    (le : radix ≤ 10) (h : c ∈ Nat.toDigits radix n) : isDigit c = true := by
  have digit := Nat.isDigit_of_mem_toDigits pos le h
  simpa [isDigit, Char.isDigit, Char.le_def, UInt32.le_iff_toNat_le] using digit

theorem isDigit_of_mem_toDigits {n : Nat} {c : Char} (h : c ∈ Nat.toDigits 10 n) :
    isDigit c = true :=
  isDigit_of_mem_toDigits_le (by decide) (by decide) h

theorem isHexDigit_of_mem_toDigits {n : Nat} {c : Char} (h : c ∈ Nat.toDigits 16 n) :
    isHexDigit c = true := by
  induction n using Nat.base_induction 16 (by decide) with
  | single m hm =>
    rw [Nat.toDigits_of_lt_base hm, List.mem_singleton] at h
    exact h ▸ isHexDigit_digitChar hm
  | digit m k hk hm ih =>
    rw [← Nat.toDigits_append_toDigits (by decide) hm hk, Nat.toDigits_of_lt_base hk,
      List.mem_append, List.mem_singleton] at h
    rcases h with h | rfl
    · exact ih h
    · exact isHexDigit_digitChar hk

theorem head_toDigits {n : Nat} (h : 0 < n) : (Nat.toDigits 10 n).head? ≠ some '0' := by
  induction n using Nat.strongRecOn with
  | ind n ih =>
    by_cases hn : n < 10
    · rw [Nat.toDigits_of_lt_base hn]
      intro e
      have zero := congrArg Char.toNat (Option.some.inj e)
      simp only [Nat.toNat_digitChar_of_lt_ten hn, Char.reduceToNat] at zero
      omega
    · have lt : n / 10 < n := by omega
      have pos : 0 < n / 10 := by omega
      obtain ⟨c, cs, hcs⟩ :=
        List.exists_cons_of_ne_nil (Nat.toDigits_ne_nil (n := n / 10) (b := 10))
      have front := ih _ lt pos
      rw [Nat.toDigits_of_base_le (by decide) (by omega), hcs]
      rwa [hcs] at front

theorem toDigits_injective {m n : Nat} (h : Nat.toDigits 10 m = Nat.toDigits 10 n) : m = n := by
  have value := congrArg (fun cs => Nat.ofDigitChars 10 cs 0) h
  simpa only [Nat.ofDigitChars_ten_toDigits] using value

/-! ## Reading digits -/

section Reading

variable {radix : Nat}

theorem digitsFrom?_append (as bs : List Char) (value : Nat) :
    digitsFrom? radix value (as ++ bs) =
      (digitsFrom? radix value as).bind (digitsFrom? radix · bs) := by
  induction as generalizing value with
  | nil => rfl
  | cons a as ih =>
    rw [List.cons_append, digitsFrom?, digitsFrom?]
    split
    · split
      · exact ih _
      · rfl
    · rfl

theorem digitsFrom?_digitChar {d : Nat} (hd : d < radix) (le : radix ≤ 16) (value : Nat) :
    digitsFrom? radix value [d.digitChar] = some (value * radix + d) := by
  rw [digitsFrom?, digitValue?_digitChar (Nat.lt_of_lt_of_le hd le)]
  exact if_pos hd

/-- The digits of a number are read as the number. -/
theorem digitsFrom?_toDigits (base : 1 < radix) (le : radix ≤ 16) (n : Nat) :
    digitsFrom? radix 0 (Nat.toDigits radix n) = some n := by
  induction n using Nat.base_induction radix base with
  | single m hm => rw [Nat.toDigits_of_lt_base hm, digitsFrom?_digitChar hm le, Nat.zero_mul,
      Nat.zero_add]
  | digit m k hk hm ih =>
    rw [← Nat.toDigits_append_toDigits base hm hk, digitsFrom?_append, ih,
      Nat.toDigits_of_lt_base hk, Option.bind_some, digitsFrom?_digitChar hk le, Nat.mul_comm]

/-- Zeros before the digits do not matter. -/
theorem digitsFrom?_zeros (base : 1 < radix) (zeros : Nat) (cs : List Char) :
    digitsFrom? radix 0 (List.replicate zeros '0' ++ cs) = digitsFrom? radix 0 cs := by
  induction zeros with
  | zero => rfl
  | succ zeros ih =>
    have zero : digitValue? '0' = some 0 := by decide
    rw [List.replicate_succ, List.cons_append, digitsFrom?, zero]
    dsimp only
    rw [if_pos (Nat.lt_of_succ_lt base), Nat.zero_mul, ih]

theorem digitsFrom?_map_toLower (cs : List Char) (value : Nat) :
    digitsFrom? radix value (cs.map Char.toLower) = digitsFrom? radix value cs := by
  induction cs generalizing value with
  | nil => rfl
  | cons c cs ih =>
    rw [List.map_cons, digitsFrom?, digitsFrom?, digitValue?_toLower]
    simp only [ih]

/-- A number is read off its digits, after any zeros. -/
theorem digits?_toDigits (base : 1 < radix) (le : radix ≤ 16) (zeros n : Nat) :
    digits? radix (List.replicate zeros '0' ++ Nat.toDigits radix n) = some n := by
  rw [digits?, if_neg (by simp), digitsFrom?_zeros base, digitsFrom?_toDigits base le]

/-- A number is read off its digits of either case, after any zeros. -/
theorem digits?_of_map_toLower (base : 1 < radix) (le : radix ≤ 16) (zeros : Nat) {n : Nat}
    {digits : List Char} (h : digits.map Char.toLower = Nat.toDigits radix n) :
    digits? radix (List.replicate zeros '0' ++ digits) = some n := by
  have nonempty : digits ≠ [] := by
    rintro rfl
    exact Nat.toDigits_ne_nil h.symm
  rw [digits?, if_neg (by simp [nonempty]), digitsFrom?_zeros base, ← digitsFrom?_map_toLower, h,
    digitsFrom?_toDigits base le]

end Reading

end ConstLookup.Text
