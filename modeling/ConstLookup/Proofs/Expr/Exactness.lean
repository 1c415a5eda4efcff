import ConstLookup.Expr.Arithmetic
import Mathlib.Data.Int.Bitwise
import Mathlib.Data.Int.ModEq

/-!
  Operators on integers against arithmetic without bounds. `BinaryOp.exact` and `UnaryOp.exact`
  say what an operator means for integers of any size. On operands of the word an operator gives
  this result, and an overflow where the result is outside the word, with two exceptions
  (`apply_eq_exact_iff`): a left shift drops the bits that it moves out of the word, and the
  remainder of the least integer by minus one is an overflow although it is zero.
-/

namespace ConstLookup

/-! ## Results without bounds -/

/-- What a binary operator gives for integers of any size. Division truncates toward zero, a
right shift rounds down, and the bits of an integer are those of its endless two's complement. -/
def BinaryOp.exact (op : BinaryOp) (l r : Int) : Except EvalError Int :=
  match op with
  | .add => .ok (l + r)
  | .sub => .ok (l - r)
  | .mul => .ok (l * r)
  | .div => if r = 0 then .error .divisionByZero else .ok (l.tdiv r)
  | .rem => if r = 0 then .error .divisionByZero else .ok (l.tmod r)
  | .shiftLeft => if 0 ≤ r ∧ r < 128 then .ok (l * 2 ^ r.toNat) else .error .overflow
  | .shiftRight => if 0 ≤ r ∧ r < 128 then .ok (l.fdiv (2 ^ r.toNat)) else .error .overflow
  | .bitAnd => .ok (l.land r)
  | .bitOr => .ok (l.lor r)
  | .bitXor => .ok (l.xor r)
  | .paste =>
    if l < 0 ∨ r < 0 then .error (.unsupported "## on negative operand")
    else .ok (pasteDigits l.toNat r.toNat)
  | .less => .ok (if l < r then 1 else 0)
  | .lessEq => .ok (if l ≤ r then 1 else 0)
  | .greater => .ok (if r < l then 1 else 0)
  | .greaterEq => .ok (if r ≤ l then 1 else 0)
  | .equal => .ok (if l = r then 1 else 0)
  | .notEqual => .ok (if l ≠ r then 1 else 0)
  | .and => .ok (if l ≠ 0 ∧ r ≠ 0 then 1 else 0)
  | .or => .ok (if l ≠ 0 ∨ r ≠ 0 then 1 else 0)

/-- What a unary operator gives for an integer of any size. -/
def UnaryOp.exact (op : UnaryOp) (v : Int) : Int :=
  match op with
  | .complement => v.lnot
  | .not => if v = 0 then 1 else 0
  | .negate => -v
  | .plus => v

/-- Where an operator departs from its result without bounds. -/
def BinaryOp.Departs (op : BinaryOp) (l r : Int) : Prop :=
  match op with
  | .shiftLeft => 0 ≤ r ∧ r < 128 ∧ ¬ InWord (l * 2 ^ r.toNat)
  | .rem => l = -2 ^ 127 ∧ r = -1
  | _ => False

/-! ## Integers of the word -/

theorem inWord_iff {v : Int} : InWord v ↔ -2 ^ 127 ≤ v ∧ v < 2 ^ 127 := by
  unfold InWord
  rw [Nat.pow_eq]
  omega

theorem inWord_natCast {n : Nat} : InWord (n : Int) ↔ n < 2 ^ 127 := by
  rw [inWord_iff]
  omega

theorem inWord_negSucc {n : Nat} : InWord (Int.negSucc n) ↔ n < 2 ^ 127 := by
  rw [inWord_iff]
  omega

theorem inWord_bitwise (f : Bool → Bool → Bool) {l r : Int} (hl : InWord l) (hr : InWord r) :
    InWord (Int.bitwise f l r) := by
  have natural (g : Bool → Bool → Bool) {m n : Nat} (hm : m < 2 ^ 127) (hn : n < 2 ^ 127) :
      InWord (Int.natBitwise g m n) := by
    unfold Int.natBitwise
    cases g false false with
    | false => exact inWord_natCast.mpr (Nat.bitwise_lt_two_pow hm hn)
    | true => exact inWord_negSucc.mpr (Nat.bitwise_lt_two_pow hm hn)
  rcases l with m | m <;> rcases r with n | n <;> rw [Int.bitwise]
  · exact natural _ (inWord_natCast.mp hl) (inWord_natCast.mp hr)
  · exact natural _ (inWord_natCast.mp hl) (inWord_negSucc.mp hr)
  · exact natural _ (inWord_negSucc.mp hl) (inWord_natCast.mp hr)
  · exact natural _ (inWord_negSucc.mp hl) (inWord_negSucc.mp hr)

theorem getLsbD_ofInt (v : Int) {w i : Nat} (hi : i < w) :
    (BitVec.ofInt w v).getLsbD i = v.testBit i := by
  cases v with
  | ofNat n =>
    rw [Int.ofNat_eq_natCast, BitVec.ofInt_natCast, BitVec.getLsbD_ofNat]
    simp [hi, Int.testBit]
  | negSucc n =>
    rw [BitVec.ofInt_negSucc_eq_not_ofNat, BitVec.getLsbD_not, BitVec.getLsbD_ofNat]
    simp [hi, Int.testBit]

theorem inWord_tmod {l r : Int} (hr : InWord r) (nonzero : r ≠ 0) : InWord (l.tmod r) := by
  have size : (l.tmod r).natAbs = l.natAbs % r.natAbs := Int.natAbs_tmod l r
  have small : l.natAbs % r.natAbs < r.natAbs := Nat.mod_lt _ (by omega)
  rw [inWord_iff] at *
  omega

/-- A quotient leaves the word only where the least integer changes its sign. -/
theorem inWord_tdiv_iff {l r : Int} (hl : InWord l) (nonzero : r ≠ 0) :
    InWord (l.tdiv r) ↔ ¬ (l = -2 ^ 127 ∧ r = -1) := by
  by_cases one : r.natAbs = 1
  · rcases (by omega : r = 1 ∨ r = -1) with rfl | rfl
    · rw [Int.tdiv_one]
      exact iff_of_true hl (by omega)
    · rw [Int.tdiv_neg, Int.tdiv_one]
      rw [inWord_iff] at *
      omega
  · have size : (l.tdiv r).natAbs = l.natAbs / r.natAbs := Int.natAbs_tdiv l r
    have half : l.natAbs / r.natAbs ≤ l.natAbs / 2 := Nat.div_le_div_left (by omega) (by decide)
    rw [inWord_iff] at *
    omega

theorem inWord_fdiv {l : Int} (hl : InWord l) (n : Nat) : InWord (l.fdiv (2 ^ n)) := by
  have positive : (0 : Int) < 2 ^ n := Int.pow_pos (by decide)
  have low : -(2 ^ 127 : Int) * 2 ^ n ≤ -(2 ^ 127 : Int) * 1 :=
    Int.mul_le_mul_of_nonpos_left (by omega) (by omega)
  have high : (2 ^ 127 : Int) * 1 ≤ 2 ^ 127 * 2 ^ n :=
    Int.mul_le_mul_of_nonneg_left (by omega) (by omega)
  obtain ⟨least, greatest⟩ := inWord_iff.mp hl
  rw [Int.fdiv_eq_ediv_of_nonneg _ (Int.le_of_lt positive), inWord_iff]
  exact ⟨(Int.le_ediv_iff_mul_le positive).mpr (by omega),
    (Int.ediv_lt_iff_lt_mul positive).mpr (by omega)⟩

/-- Dropping all bits above those of the word changes exactly the integers outside it. -/
theorem bmod_eq_iff (v : Int) : v.bmod (2 ^ 128) = v ↔ InWord v := by
  constructor
  · intro same
    have low := Int.le_bmod (x := v) (m := 2 ^ 128) (by omega)
    have high := Int.bmod_lt (x := v) (m := 2 ^ 128) (by omega)
    rw [inWord_iff]
    omega
  · intro fits
    obtain ⟨low, high⟩ := inWord_iff.mp fits
    exact Int.bmod_eq_of_le (by omega) (by omega)

/-! ## Operators -/

theorem checkedInt_eq {v : Int} (h : InWord v) : checkedInt v = .ok (.int v) := if_pos h

theorem checkedInt_outside {v : Int} (h : ¬ InWord v) : checkedInt v = .error .overflow :=
  if_neg h

theorem ok_bind_checkedInt (v : Int) : (.ok v >>= checkedInt) = checkedInt v := rfl

theorem checkedInt_ofBool (p : Prop) [Decidable p] :
    checkedInt (if p then 1 else 0) = .ok (.ofBool (decide p)) := by
  by_cases h : p
  · simp only [h, if_true, decide_true]
    rfl
  · simp only [h, if_false, decide_false]
    rfl

/-- Bitwise operators see the same bits in the word and without bounds. -/
theorem checkedInt_bitwise {f : Bool → Bool → Bool} {g : BitVec 128 → BitVec 128 → BitVec 128}
    (bits : ∀ x y i, (g x y).getLsbD i = f (x.getLsbD i) (y.getLsbD i)) {l r : Int}
    (hl : InWord l) (hr : InWord r) :
    checkedInt (Int.bitwise f l r) = .ok (bitwise g l r) := by
  have same : g (BitVec.ofInt 128 l) (BitVec.ofInt 128 r) =
      BitVec.ofInt 128 (Int.bitwise f l r) := by
    refine BitVec.eq_of_getLsbD_eq fun i hi => ?_
    rw [bits, getLsbD_ofInt l hi, getLsbD_ofInt r hi, getLsbD_ofInt _ hi, Int.testBit_bitwise]
  have fits := inWord_bitwise f hl hr
  rw [checkedInt_eq fits, bitwise, same, BitVec.toInt_ofInt_eq_self (by decide) fits.1 fits.2]

/-- A left shift keeps the bits that stay in the word. -/
theorem shiftLeft_eq {l r : Int} (amount : 0 ≤ r ∧ r < 128) :
    BinaryOp.shiftLeft.applyInt l r = .ok (.int ((l * 2 ^ r.toNat).bmod (2 ^ 128))) := by
  have power : ((2 ^ r.toNat : Nat) : Int) = 2 ^ r.toNat := Int.natCast_pow 2 _
  rw [← power, BinaryOp.applyInt, shiftAmount, if_pos amount]
  rfl

/-- A left shift departs where it moves bits out of the word. -/
theorem shiftLeft_eq_exact_iff {l r : Int} :
    BinaryOp.shiftLeft.applyInt l r = (BinaryOp.shiftLeft.exact l r >>= checkedInt) ↔
      ¬ BinaryOp.shiftLeft.Departs l r := by
  by_cases amount : 0 ≤ r ∧ r < 128
  · have shifted : (BinaryOp.exact .shiftLeft l r >>= checkedInt) =
        checkedInt (l * 2 ^ r.toNat) := by
      rw [BinaryOp.exact, if_pos amount, ok_bind_checkedInt]
    rw [shifted, shiftLeft_eq amount, BinaryOp.Departs, and_iff_right amount.1,
      and_iff_right amount.2, not_not]
    constructor
    · intro same
      by_contra outside
      rw [checkedInt_outside outside] at same
      cases same
    · intro fits
      rw [checkedInt_eq fits, (bmod_eq_iff _).mpr fits]
  · refine iff_of_true ?_ (by unfold BinaryOp.Departs; omega)
    rw [BinaryOp.applyInt, BinaryOp.exact, shiftAmount, if_neg amount, if_neg amount]
    rfl

theorem shiftRight_eq {l r : Int} (amount : 0 ≤ r ∧ r < 128) :
    BinaryOp.shiftRight.applyInt l r = .ok (.int (l.fdiv (2 ^ r.toNat))) := by
  have positive : (0 : Int) ≤ 2 ^ r.toNat := Int.le_of_lt (Int.pow_pos (by decide))
  have halved : l.shiftRight r.toNat = l.fdiv (2 ^ r.toNat) := by
    rw [Int.fdiv_eq_ediv_of_nonneg _ positive]
    exact Int.shiftRight_eq_div_pow l r.toNat
  rw [← halved, BinaryOp.applyInt, shiftAmount, if_pos amount]
  rfl

theorem shiftRight_eq_exact {l r : Int} (hl : InWord l) :
    BinaryOp.shiftRight.applyInt l r = (BinaryOp.shiftRight.exact l r >>= checkedInt) := by
  by_cases amount : 0 ≤ r ∧ r < 128
  · rw [shiftRight_eq amount, BinaryOp.exact, if_pos amount, ok_bind_checkedInt,
      checkedInt_eq (inWord_fdiv hl _)]
  · rw [BinaryOp.applyInt, BinaryOp.exact, shiftAmount, if_neg amount, if_neg amount]
    rfl

theorem rem_eq {l r : Int} (hr : InWord r) (nonzero : r ≠ 0) :
    BinaryOp.rem.applyInt l r =
      if InWord (l.tdiv r) then .ok (.int (l.tmod r)) else .error .overflow := by
  rw [BinaryOp.applyInt, if_neg nonzero, checkedInt_eq (inWord_tmod hr nonzero)]

/-- A remainder departs where there is no quotient in the word to take it from. -/
theorem rem_eq_exact_iff {l r : Int} (hl : InWord l) (hr : InWord r) :
    BinaryOp.rem.applyInt l r = (BinaryOp.rem.exact l r >>= checkedInt) ↔
      ¬ BinaryOp.rem.Departs l r := by
  by_cases zero : r = 0
  · refine iff_of_true ?_ (by unfold BinaryOp.Departs; omega)
    simp only [BinaryOp.applyInt, BinaryOp.exact, zero, if_true]
    rfl
  · have remainder : (BinaryOp.exact .rem l r >>= checkedInt) = .ok (.int (l.tmod r)) := by
      rw [BinaryOp.exact, if_neg zero, ok_bind_checkedInt, checkedInt_eq (inWord_tmod hr zero)]
    rw [remainder, rem_eq hr zero, BinaryOp.Departs, ← inWord_tdiv_iff hl zero]
    by_cases quotient : InWord (l.tdiv r)
    · exact iff_of_true (if_pos quotient) quotient
    · rw [if_neg quotient]
      exact iff_of_false (fun same => by cases same) quotient

/-- A binary operator on integers of the word gives its result without bounds, or an overflow
where the word does not hold that, exactly where it does not depart from it. -/
theorem BinaryOp.applyInt_eq_exact_iff (op : BinaryOp) {l r : Int} (hl : InWord l)
    (hr : InWord r) : op.applyInt l r = (op.exact l r >>= checkedInt) ↔ ¬ op.Departs l r := by
  cases op with
  | add | sub | mul => exact iff_of_true rfl not_false
  | div =>
    refine iff_of_true ?_ not_false
    by_cases zero : r = 0 <;> simp only [applyInt, exact, zero, if_true, if_false] <;> rfl
  | rem => exact rem_eq_exact_iff hl hr
  | shiftLeft => exact shiftLeft_eq_exact_iff
  | shiftRight => exact iff_of_true (shiftRight_eq_exact hl) not_false
  | bitAnd =>
    have fits := checkedInt_bitwise (f := (· && ·)) (fun _ _ _ => BitVec.getLsbD_and) hl hr
    exact iff_of_true (Int.bitwise_and ▸ fits).symm not_false
  | bitOr =>
    have fits := checkedInt_bitwise (f := (· || ·)) (fun _ _ _ => BitVec.getLsbD_or) hl hr
    exact iff_of_true (Int.bitwise_or ▸ fits).symm not_false
  | bitXor =>
    have fits := checkedInt_bitwise (f := (· ^^ ·)) (fun _ _ _ => BitVec.getLsbD_xor) hl hr
    exact iff_of_true (Int.bitwise_xor ▸ fits).symm not_false
  | paste =>
    refine iff_of_true ?_ not_false
    rw [applyInt, exact]
    by_cases negative : l < 0 ∨ r < 0
    · rw [if_pos negative, if_pos negative]
      rfl
    · rw [if_neg negative, if_neg negative, ok_bind_checkedInt]
  | less | lessEq | greater | greaterEq | equal | notEqual | and | or =>
    exact iff_of_true (checkedInt_ofBool _).symm not_false

theorem UnaryOp.apply_eq_exact (op : UnaryOp) {v : Int} (h : InWord v) :
    op.apply (.int v) = checkedInt (op.exact v) := by
  cases op with
  | complement =>
    have flipped : -v - 1 = v.lnot := by
      cases v with
      | ofNat n => exact (Int.negSucc_eq n ▸ by omega : -(n : Int) - 1 = Int.negSucc n)
      | negSucc n => exact (by omega : -Int.negSucc n - 1 = (n : Int))
    have fits : InWord (-v - 1) := by
      rw [inWord_iff] at *
      omega
    rw [exact, ← flipped, checkedInt_eq fits]
    rfl
  | not =>
    have negated : (!(Number.int v).isTrue) = decide (v = 0) := by simp
    rw [exact, checkedInt_ofBool, ← negated]
    rfl
  | negate => rfl
  | plus => exact (checkedInt_eq h).symm

/-- On integers of the word every operator gives its result without bounds, and an overflow where
the word does not hold that. There are two exceptions: a left shift out of the word gives the
integer of the word that agrees with the shifted one in all bits kept, and the remainder of the
least integer by minus one is an overflow instead of zero. -/
theorem apply_eq_exact_iff {l r : Int} (hl : InWord l) (hr : InWord r) :
    (∀ op : BinaryOp,
      op.apply (.int l) (.int r) = (op.exact l r >>= checkedInt) ↔ ¬ op.Departs l r) ∧
    (BinaryOp.shiftLeft.Departs l r → ∃ w, InWord w ∧ w ≠ l * 2 ^ r.toNat ∧
      w ≡ l * 2 ^ r.toNat [ZMOD 2 ^ 128] ∧
      BinaryOp.shiftLeft.apply (.int l) (.int r) = .ok (.int w)) ∧
    (BinaryOp.rem.Departs l r → l.tmod r = 0 ∧
      BinaryOp.rem.apply (.int l) (.int r) = .error .overflow) ∧
    ∀ op : UnaryOp, op.apply (.int l) = checkedInt (op.exact l) := by
  refine ⟨fun op => op.applyInt_eq_exact_iff hl hr, ?_, ?_, fun op => op.apply_eq_exact hl⟩
  · rintro ⟨low, high, outside⟩
    refine ⟨(l * 2 ^ r.toNat).bmod (2 ^ 128), ?_, ?_, ?_, shiftLeft_eq ⟨low, high⟩⟩
    · exact (bmod_eq_iff _).mp Int.bmod_bmod
    · exact fun same => outside ((bmod_eq_iff _).mp same)
    · exact Int.bmod_emod
  · rintro ⟨rfl, rfl⟩
    have outside : ¬ InWord (Int.tdiv (-2 ^ 127) (-1)) := by decide
    exact ⟨by decide, (rem_eq hr (by decide)).trans (if_neg outside)⟩

/-- The shift of one to the sign bit is negative, and the least integer has no remainder by minus
one. -/
theorem apply_departs :
    InWord 1 ∧ InWord 127 ∧ BinaryOp.shiftLeft.exact 1 127 = .ok (2 ^ 127) ∧
      ¬ InWord (2 ^ 127) ∧
      BinaryOp.shiftLeft.apply (.int 1) (.int 127) = .ok (.int (-2 ^ 127)) ∧
    InWord (-2 ^ 127) ∧ InWord (-1) ∧ BinaryOp.rem.exact (-2 ^ 127) (-1) = .ok 0 ∧
      BinaryOp.rem.apply (.int (-2 ^ 127)) (.int (-1)) = .error .overflow := by
  have shifted : ((1 : Int) * 2 ^ (127 : Int).toNat).bmod (2 ^ 128) = -2 ^ 127 := by decide
  have outside : ¬ InWord (Int.tdiv (-2 ^ 127) (-1)) := by decide
  refine ⟨by decide, by decide, rfl, by decide, ?_, by decide, by decide, rfl, ?_⟩
  · rw [BinaryOp.apply, shiftLeft_eq (by decide), shifted]
  · exact (rem_eq (by decide) (by decide)).trans (if_neg outside)

/-- Operators at the least integer and minus one. -/
theorem apply_eq_exact_iff_least :
    InWord (-2 ^ 127) ∧ InWord (-1) ∧ BinaryOp.rem.Departs (-2 ^ 127) (-1) ∧
      BinaryOp.div.apply (.int (-2 ^ 127)) (.int (-1)) = .error .overflow ∧
      BinaryOp.rem.apply (.int (-2 ^ 127)) (.int (-1)) = .error .overflow ∧
      UnaryOp.negate.apply (.int (-2 ^ 127)) = .error .overflow := by
  have hl : InWord (-2 ^ 127) := by decide
  have hr : InWord (-1) := by decide
  obtain ⟨exact, -, remainder, unary⟩ := apply_eq_exact_iff hl hr
  refine ⟨hl, hr, ⟨rfl, rfl⟩, ?_, (remainder ⟨rfl, rfl⟩).2, ?_⟩
  · have outside : ¬ InWord ((-2 ^ 127 : Int).tdiv (-1)) := by decide
    exact ((exact .div).mpr not_false).trans (checkedInt_outside outside)
  · have outside : ¬ InWord (-(-2 ^ 127 : Int)) := by decide
    exact (unary .negate).trans (checkedInt_outside outside)

end ConstLookup
