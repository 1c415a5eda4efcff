import ConstLookup.Text.Case

/-!
  Lookup tables: from values to the names of the constants that have them.
-/

namespace ConstLookup

/-- A named integer constant. -/
structure NamedValue where
  name : String
  value : Int
  deriving DecidableEq, Repr, Inhabited

/-- One value of a lookup table: the label printed for it, and a constant that has it. -/
structure Entry where
  label : String
  representative : NamedValue
  deriving DecidableEq, Repr

/-- How a lookup table was formed. -/
inductive TableOrigin where
  /-- From one enum. -/
  | enumeration
  /-- From macros whose names share a stem. -/
  | stem
  /-- From macros without such a stem. -/
  | remainder
  deriving DecidableEq, Repr

/-- A C integer type of fixed width. -/
structure IntType where
  bits : Nat
  signed : Bool
  deriving DecidableEq, Repr

/-- Spelling of the type in C. -/
def IntType.spelling (t : IntType) : String :=
  if t.bits = 128 then
    if t.signed then "__int128" else "unsigned __int128"
  else if t.signed then s!"int{t.bits}_t"
  else s!"uint{t.bits}_t"

/-- The values of the type. -/
def IntType.Holds (t : IntType) (v : Int) : Prop :=
  if t.signed then -Nat.pow 2 (t.bits - 1) ≤ v ∧ v < Nat.pow 2 (t.bits - 1)
  else 0 ≤ v ∧ v < Nat.pow 2 t.bits

/-- A lookup from values to labels. -/
structure LookupTable where
  name : String
  origin : TableOrigin
  /-- One entry per value, in the order of declaration. -/
  entries : List Entry
  /-- The smallest type that holds every value, if there is one. -/
  intType : Option IntType
  /-- The table also gets a parser for combinations of flags. -/
  isMask : Bool
  deriving DecidableEq, Repr

/-- The label of a value without an entry. -/
def unknownLabel : String := "Unknown"

namespace LookupTable

/-- Bytes that hold any label of the table, or the one for unknown values, with its
terminator. -/
def maxLabelLength (t : LookupTable) : Nat :=
  t.entries.foldl (fun m e => max m (e.label.utf8ByteSize + 1)) (unknownLabel.utf8ByteSize + 1)

/-- The label of a value. -/
def labelOf (t : LookupTable) (v : Int) : String :=
  match t.entries.find? (·.representative.value = v) with
  | some e => e.label
  | none => unknownLabel

end LookupTable

/-- The tables of one header. -/
structure HeaderTables where
  path : String
  tables : List LookupTable
  deriving DecidableEq, Repr

end ConstLookup
