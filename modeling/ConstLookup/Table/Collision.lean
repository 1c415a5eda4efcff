import ConstLookup.Table.Basic

/-!
  Constants that share a value get one label that names all of them, such as
  `LOG_ID_MIN_OR_MAIN`. Labels and table names are kept distinct without regard to case by a
  numeric suffix.
-/

namespace ConstLookup

open ConstLookup.Text

/-- The longest common start of two lists. -/
def commonStart : List Char → List Char → List Char
  | a :: as, b :: bs => if a = b then a :: commonStart as bs else []
  | _, _ => []

/-- The part before the last underscore, if there is one. -/
def beforeUnderscore? (cs : List Char) : Option (List Char) :=
  match cs.reverse.dropWhile (· ≠ '_') with
  | [] => none
  | _ :: before => some before.reverse

/-- One label for several names: the upper case of the start that they share up to an
underscore, then the rest of each. Without such a start the whole names are joined. -/
def compositeLabel (names : List String) : String :=
  match names.map fun n => upperChars n.toList with
  | [] => ""
  | [only] => String.ofList only
  | first :: others =>
    match beforeUnderscore? (others.foldl commonStart first) with
    | some stem =>
      let ends := (first :: others).map (·.drop stem.length)
      String.ofList (stem ++ ['_', 'O', 'R'].intercalate ends)
    | none => String.ofList (['_', 'O', 'R', '_'].intercalate (first :: others))

/-- The `n`-th choice for a name: the name itself, then the name with `_2`, `_3` and so on. -/
def nameChoice (base : String) : Nat → String
  | 0 => base
  | n + 1 => s!"{base}_{n + 2}"

/-- The first choice for a name whose upper case is not in `used`. Choices have distinct upper
cases, so one of the first `used.length + 1` is free. -/
def uniqueName (used : List String) (base : String) : String :=
  let free := (List.range (used.length + 1)).find? fun n =>
    !used.contains (upper (nameChoice base n))
  nameChoice base (free.getD 0)

/-- The used names after a name was chosen. -/
def markUsed (used : List String) (name : String) : List String := upper name :: used

/-- The distinct values of a list in the order of their first members. -/
def distinctValues : List NamedValue → List Int
  | [] => []
  | m :: ms => m.value :: (distinctValues ms).filter (· ≠ m.value)

/-- The label of a value before it is made unique. -/
def baseLabel (members : List NamedValue) (v : Int) : String :=
  match members.filter (·.value = v) with
  | [only] => only.name
  | same => compositeLabel (same.map (·.name))

/-- Entries for values in turn, each label distinct from the used ones. -/
def entriesFrom (members : List NamedValue) (used : List String) : List Int → List Entry
  | [] => []
  | v :: vs =>
    match members.find? (·.value = v) with
    | none => entriesFrom members used vs
    | some first =>
      let label := uniqueName used (baseLabel members v)
      { label := label, representative := first } :: entriesFrom members (markUsed used label) vs

/-- One entry per distinct value, represented by its first member. -/
def mergeCollisions (members : List NamedValue) : List Entry :=
  entriesFrom members [] (distinctValues members)

end ConstLookup
