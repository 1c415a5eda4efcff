import ConstLookup.Table.Basic

/-!
  The smallest C integer type that holds all values of a table.
-/

namespace ConstLookup

/-- Number of bits of the absolute value. -/
def bitLength (v : Int) : Nat := if v = 0 then 0 else v.natAbs.log2 + 1

/-- The widths of the C integer types. -/
def widths : List Nat := [8, 16, 32, 64, 128]

/-- The smallest type for all values: signed, with one more bit, if one of them is negative.
There is none for an empty list, or when no width suffices. -/
def inferType (values : List Int) : Option IntType :=
  if values.isEmpty then none
  else
    let signed := values.any (· < 0)
    let need := (values.map bitLength).foldl max 0 + (if signed then 1 else 0)
    (widths.find? (need ≤ ·)).map fun bits => { bits := bits, signed := signed }

end ConstLookup
