import ConstLookup.Expr.Error

/-!
  What the operators compute. Integer results outside the 128-bit word are an overflow, except
  that a left shift loses the bits it moves out of the word. As soon as one operand is a float
  the other is converted, and only the operators that make sense for floats apply.
-/

namespace ConstLookup

/-- The integer, if it fits the word. -/
def checkedInt (v : Int) : Except EvalError Number :=
  if InWord v then .ok (.int v) else .error .overflow

/-- A shift amount below the width of the word. -/
def shiftAmount (v : Int) : Except EvalError Nat :=
  if 0 ≤ v ∧ v < 128 then .ok v.toNat else .error .overflow

/-- Bitwise operation on two words. -/
def bitwise (f : BitVec 128 → BitVec 128 → BitVec 128) (l r : Int) : Number :=
  .int (f (BitVec.ofInt 128 l) (BitVec.ofInt 128 r)).toInt

/-- The number whose decimal digits are those of `l` followed by those of `r`. -/
def pasteDigits (l r : Nat) : Nat := l * Nat.pow 10 (Nat.toDigits 10 r).length + r

/-- A binary operator on two integers of the word. -/
def BinaryOp.applyInt (op : BinaryOp) (l r : Int) : Except EvalError Number :=
  match op with
  | .add => checkedInt (l + r)
  | .sub => checkedInt (l - r)
  | .mul => checkedInt (l * r)
  | .div => if r = 0 then .error .divisionByZero else checkedInt (l.tdiv r)
  | .rem =>
    if r = 0 then .error .divisionByZero
    else if InWord (l.tdiv r) then checkedInt (l.tmod r)
    else .error .overflow
  | .shiftLeft => (shiftAmount r).map fun n => .int ((l * Nat.pow 2 n).bmod (Nat.pow 2 128))
  | .shiftRight => (shiftAmount r).map fun n => .int (l.shiftRight n)
  | .bitAnd => .ok (bitwise (· &&& ·) l r)
  | .bitOr => .ok (bitwise (· ||| ·) l r)
  | .bitXor => .ok (bitwise (· ^^^ ·) l r)
  | .paste =>
    if l < 0 ∨ r < 0 then .error (.unsupported "## on negative operand")
    else checkedInt (pasteDigits l.toNat r.toNat)
  | .less => .ok (.ofBool (l < r))
  | .lessEq => .ok (.ofBool (l ≤ r))
  | .greater => .ok (.ofBool (r < l))
  | .greaterEq => .ok (.ofBool (r ≤ l))
  | .equal => .ok (.ofBool (l = r))
  | .notEqual => .ok (.ofBool (l ≠ r))
  | .and => .ok (.ofBool (l ≠ 0 ∧ r ≠ 0))
  | .or => .ok (.ofBool (l ≠ 0 ∨ r ≠ 0))

/-- A binary operator on two floats. -/
def BinaryOp.applyFloat (op : BinaryOp) (l r : Float) : Except EvalError Number :=
  match op with
  | .add => .ok (.float (l + r))
  | .sub => .ok (.float (l - r))
  | .mul => .ok (.float (l * r))
  | .div => if r == 0.0 then .error .divisionByZero else .ok (.float (l / r))
  | .less => .ok (.ofBool (l < r))
  | .lessEq => .ok (.ofBool (l ≤ r))
  | .greater => .ok (.ofBool (r < l))
  | .greaterEq => .ok (.ofBool (r ≤ l))
  | .equal => .ok (.ofBool (l == r))
  | .notEqual => .ok (.ofBool (l != r))
  | .and => .ok (.ofBool (l != 0.0 && r != 0.0))
  | .or => .ok (.ofBool (l != 0.0 || r != 0.0))
  | .rem | .shiftLeft | .shiftRight | .bitAnd | .bitOr | .bitXor | .paste =>
    .error (.notInteger op.text)

/-- A binary operator on two numbers. -/
def BinaryOp.apply (op : BinaryOp) : Number → Number → Except EvalError Number
  | .int l, .int r => op.applyInt l r
  | l, r => op.applyFloat l.toFloat r.toFloat

/-- A unary operator on a number. -/
def UnaryOp.apply (op : UnaryOp) (v : Number) : Except EvalError Number :=
  match op, v with
  | .complement, .int v => .ok (.int (-v - 1))
  | .complement, .float _ => .error (.notInteger op.text)
  | .not, v => .ok (.ofBool (!v.isTrue))
  | .negate, .int v => checkedInt (-v)
  | .negate, .float v => .ok (.float (-v))
  | .plus, v => .ok v

end ConstLookup
