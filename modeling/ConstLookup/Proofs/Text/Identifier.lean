import ConstLookup.Proofs.Text.Case
import ConstLookup.Text.Word

/-!
  Identifiers as the grammar of C has them: a letter or underscore, followed by letters,
  underscores and digits of ASCII. The tests of characters and of names agree with it
  (`isIdentStart_iff`, `isIdentPart_iff`, `isIdentifier_iff`).
-/

namespace ConstLookup.Text

/-- The letters and the underscore. -/
def nondigits : List Char := "_abcdefghijklmnopqrstuvwxyzABCDEFGHIJKLMNOPQRSTUVWXYZ".toList

/-- The digits. -/
def digits : List Char := "0123456789".toList

/-- A letter or underscore, followed by letters, underscores and digits. -/
def CIdentifier : List Char → Prop
  | [] => False
  | c :: cs => c ∈ nondigits ∧ ∀ d ∈ cs, d ∈ nondigits ∨ d ∈ digits

theorem toNat_lt_of_isIdentPart {c : Char} (h : isIdentPart c = true) : c.toNat < 128 := by
  simp only [isIdentPart, isAsciiLetter, isDigit, Bool.or_eq_true, Bool.and_eq_true,
    decide_eq_true_eq, Char.le_def, UInt32.le_iff_toNat_le] at h
  rcases h with ((⟨-, h⟩ | ⟨-, h⟩) | ⟨-, h⟩) | rfl
  · exact Nat.lt_of_le_of_lt h (by decide)
  · exact Nat.lt_of_le_of_lt h (by decide)
  · exact Nat.lt_of_le_of_lt h (by decide)
  · decide

theorem isWord_of_part {c : Char} (h : isIdentPart c = true) : isWord c = true :=
  isWord_of_isIdentPart h (toNat_lt_of_isIdentPart h)

theorem isIdentPart_of_isIdentStart {c : Char} (h : isIdentStart c = true) :
    isIdentPart c = true := by
  simp only [isIdentStart, isIdentPart, Bool.or_eq_true] at h ⊢
  exact h.imp_left .inl

theorem isIdentStart_iff {c : Char} : isIdentStart c = true ↔ c ∈ nondigits := by
  constructor
  · intro h
    refine ascii_cases (p := fun c => isIdentStart c = true → c ∈ nondigits) ?_
      (toNat_lt_of_isIdentPart (isIdentPart_of_isIdentStart h)) h
    decide +kernel
  · have all : nondigits.all isIdentStart = true := by decide +kernel
    exact List.all_eq_true.mp all c

theorem isIdentPart_iff {c : Char} :
    isIdentPart c = true ↔ c ∈ nondigits ∨ c ∈ digits := by
  constructor
  · intro h
    refine ascii_cases (p := fun c => isIdentPart c = true → c ∈ nondigits ∨ c ∈ digits) ?_
      (toNat_lt_of_isIdentPart h) h
    decide +kernel
  · have letters : nondigits.all isIdentPart = true := by decide +kernel
    have others : digits.all isIdentPart = true := by decide +kernel
    rintro (h | h)
    · exact List.all_eq_true.mp letters c h
    · exact List.all_eq_true.mp others c h

theorem isIdentifier_iff {name : List Char} : isIdentifier name = true ↔ CIdentifier name := by
  cases name with
  | nil => simp [isIdentifier, CIdentifier]
  | cons c cs =>
    simp only [isIdentifier, CIdentifier, Bool.and_eq_true, List.all_eq_true, isIdentStart_iff,
      isIdentPart_iff]

end ConstLookup.Text
