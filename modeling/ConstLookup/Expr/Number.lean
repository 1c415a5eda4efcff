import ConstLookup.Number.Double

/-!
  The value of a constant expression: an integer of a 128-bit word, or a double.
-/

namespace ConstLookup

/-- The value of a constant expression. -/
inductive Number where
  | int (v : Int)
  | float (v : Float)
  deriving Inhabited

/-- The values of a 128-bit two's complement word. -/
def InWord (v : Int) : Prop := -Nat.pow 2 127 ≤ v ∧ v < Nat.pow 2 127

instance (v : Int) : Decidable (InWord v) := inferInstanceAs (Decidable (_ ∧ _))

namespace Number

/-- Every value but zero is true; so is a float that is not a number. -/
def isTrue : Number → Bool
  | int v => v ≠ 0
  | float v => v != 0.0

/-- The double nearest to the value. -/
def toFloat : Number → Float
  | int v => Double.ofInt v
  | float v => v

/-- One for true, zero for false. -/
def ofBool (b : Bool) : Number := int (if b then 1 else 0)

@[simp] theorem isTrue_int (v : Int) : (int v).isTrue = decide (v ≠ 0) := rfl

end Number

end ConstLookup
