import ConstLookup.Table.Basic

/-!
  Constants without a shared stem are split into subsets of distinct values, since a table gives
  each value one label.
-/

namespace ConstLookup

/-- Add a constant to every subset that lacks its value; if there is none, start a subset. -/
def addToSubsets (subsets : List (List NamedValue)) (m : NamedValue) : List (List NamedValue) :=
  if subsets.all fun s => s.any (·.value = m.value) then subsets ++ [[m]]
  else subsets.map fun s => if s.any (·.value = m.value) then s else s ++ [m]

/-- Split constants into subsets of distinct values; a constant may be in several of them. -/
def splitDefault (members : List NamedValue) : List (List NamedValue) :=
  members.foldl addToSubsets []

/-- The name of the default table at `index` of `count`. -/
def defaultTableName (index count : Nat) : String :=
  if count = 1 then "_DEFAULT" else s!"_DEFAULT_{index}"

end ConstLookup
