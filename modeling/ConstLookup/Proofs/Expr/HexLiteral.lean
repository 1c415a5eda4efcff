import ConstLookup.Proofs.Expr.Shielding

/-!
  The hexadecimal literals of a text. Every text is cut into its literals, each at the start of a
  word and as long as possible, and its other characters (`exists_cut`). Marking follows the cut:
  it puts the digits of every literal in quotes and copies the other characters
  (`shieldFrom_cut`).
-/

namespace ConstLookup.HexShield

open ConstLookup.Text

/-! ## Cutting a text -/

/-- A piece of a text: a hexadecimal literal, with its `x` of either case, or one character. -/
inductive Piece where
  | literal (x : Char) (digits : List Char)
  | char (c : Char)

/-- The text of a piece. -/
def Piece.text : Piece → List Char
  | literal x digits => '0' :: x :: digits
  | char c => [c]

/-- The text of a piece when it is marked. -/
def Piece.marked : Piece → List Char
  | literal _ digits => '0' :: 'x' :: '\'' :: (digits ++ ['\''])
  | char c => [c]

/-- The text that is made of the pieces. -/
def joined (ps : List Piece) : List Char := ps.flatMap Piece.text

/-- The text that is made of the marked pieces. -/
def joinedMarked (ps : List Piece) : List Char := ps.flatMap Piece.marked

/-- A literal between the texts `before` and `rest`: no word goes on into it, and it has a digit and
all the digits that follow. -/
structure IsLiteral (before : List Char) (x : Char) (digits rest : List Char) : Prop where
  boundary : ∀ c ∈ before.getLast?, isWord c = false
  mark : x = 'x' ∨ x = 'X'
  nonempty : digits ≠ []
  hex : ∀ c ∈ digits, isHexDigit c = true
  maximal : ∀ c ∈ rest.head?, isHexDigit c = false

/-- The pieces, after the text `before`, are literals and characters that begin none. -/
inductive Cut : List Char → List Piece → Prop where
  | nil {before : List Char} : Cut before []
  | literal {before : List Char} {x : Char} {digits : List Char} {ps : List Piece}
      (h : IsLiteral before x digits (joined ps)) (more : Cut (before ++ '0' :: x :: digits) ps) :
    Cut before (.literal x digits :: ps)
  | char {before : List Char} {c : Char} {ps : List Piece}
      (none : ∀ x digits rest, c :: joined ps = '0' :: x :: (digits ++ rest) →
        ¬ IsLiteral before x digits rest) (more : Cut (before ++ [c]) ps) :
    Cut before (.char c :: ps)

/-- Every text has a cut. -/
theorem exists_cut (before cs : List Char) : ∃ ps, joined ps = cs ∧ Cut before ps := by
  by_cases begins : ∃ x digits rest, cs = '0' :: x :: (digits ++ rest) ∧
      IsLiteral before x digits rest
  · obtain ⟨x, digits, rest, same, h⟩ := begins
    obtain ⟨ps, rfl, more⟩ := exists_cut (before ++ '0' :: x :: digits) rest
    exact ⟨.literal x digits :: ps, same.symm, .literal h more⟩
  · match cs with
    | [] => exact ⟨[], rfl, .nil⟩
    | c :: cs =>
      obtain ⟨ps, rfl, more⟩ := exists_cut (before ++ [c]) cs
      refine ⟨.char c :: ps, rfl, .char (fun x digits rest same h => ?_) more⟩
      exact begins ⟨x, digits, rest, same, h⟩
termination_by cs.length
decreasing_by
  · rw [same, List.length_cons, List.length_cons, List.length_append]
    omega
  · exact Nat.lt_succ_self _

/-! ## Marking a cut -/

theorem isIdentPart_of_isHexDigit {c : Char} (h : isHexDigit c = true) : isIdentPart c = true := by
  simp only [isHexDigit, isIdentPart, isAsciiLetter, Bool.or_eq_true, Bool.and_eq_true,
    decide_eq_true_eq] at h ⊢
  rcases h with (digit | ⟨first, last⟩) | ⟨first, last⟩
  · exact .inl (.inr digit)
  · exact .inl (.inl (.inl ⟨first, Char.le_trans last (by decide)⟩))
  · exact .inl (.inl (.inr ⟨first, Char.le_trans last (by decide)⟩))

/-- A word character stands at the end of the text. -/
def endsInWord (before : List Char) : Bool := before.getLast?.any isWord

theorem endsInWord_eq_false {before : List Char} (h : ∀ c ∈ before.getLast?, isWord c = false) :
    endsInWord before = false := by
  unfold endsInWord
  cases last : before.getLast? with
  | none => rfl
  | some c => exact h c last

theorem endsInWord_concat (before : List Char) (c : Char) :
    endsInWord (before ++ [c]) = isWord c := by
  rw [endsInWord, List.getLast?_concat]
  rfl

theorem endsInWord_literal (before : List Char) (x : Char) {digits : List Char}
    (nonempty : digits ≠ []) (hex : ∀ c ∈ digits, isHexDigit c = true) :
    endsInWord (before ++ '0' :: x :: digits) = true := by
  have text : before ++ '0' :: x :: digits =
      (before ++ '0' :: x :: digits.dropLast) ++ [digits.getLast nonempty] := by
    rw [List.append_assoc, List.cons_append, List.cons_append,
      List.dropLast_append_getLast nonempty]
  rw [text, endsInWord_concat]
  exact isWord_of_part (isIdentPart_of_isHexDigit (hex _ (List.getLast_mem nonempty)))

/-- Marking follows the cut of the text. -/
theorem shieldFrom_cut {before : List Char} {ps : List Piece} (h : Cut before ps) :
    shieldFrom (endsInWord before) (joined ps) = joinedMarked ps := by
  induction h with
  | nil => exact shieldFrom.eq_1 _
  | @literal before x digits ps literal more ih =>
    rw [endsInWord_literal before x literal.nonempty literal.hex] at ih
    have text : joined (.literal x digits :: ps) = '0' :: x :: (digits ++ joined ps) := rfl
    rw [text, endsInWord_eq_false literal.boundary,
      shieldFrom_literal literal.mark literal.nonempty literal.hex literal.maximal, ih]
    simp [joinedMarked, Piece.marked]
  | @char before c ps none more ih =>
    have text : joined (.char c :: ps) = c :: joined ps := rfl
    rw [endsInWord_concat] at ih
    rw [text, shieldFrom_copies, ih]
    · rfl
    · by_contra begins
      simp only [not_or, Bool.not_eq_true, Decidable.not_not, not_forall] at begins
      obtain ⟨boundary, rfl, x, ys, same, mark, d, hd, hex⟩ := begins
      refine none x (ys.takeWhile isHexDigit) (ys.dropWhile isHexDigit)
        (by rw [same, List.takeWhile_append_dropWhile]) ⟨?_, mark, ?_, ?_, ?_⟩
      · intro e last
        rw [endsInWord, last] at boundary
        exact boundary
      · intro empty
        have stops := takeWhile_isEmpty.mp (List.isEmpty_iff.mpr empty) d hd
        exact hex stops
      · exact List.all_eq_true.mp List.all_takeWhile
      · exact head_dropWhile isHexDigit ys

end ConstLookup.HexShield
