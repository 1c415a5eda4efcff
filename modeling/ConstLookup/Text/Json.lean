/-!
  JSON text: values over several lines, every level indented by two spaces.
-/

namespace ConstLookup.Text

/-- A JSON value; numbers are natural. -/
inductive Json where
  | null
  | bool (b : Bool)
  | number (n : Nat)
  | string (s : String)
  | array (items : List Json)
  | object (fields : List (String × Json))

namespace Json

/-- Characters with an escape of their own. -/
def shortEscapes : List (Char × String) :=
  [('"', "\\\""), ('\\', "\\\\"), ('\n', "\\n"), ('\r', "\\r"), ('\t', "\\t"), ('\x08', "\\b"),
    ('\x0c', "\\f")]

/-- The four hexadecimal digits of a number below 32. -/
def fourDigits (n : Nat) : String :=
  String.ofList (['0', '0'] ++ [Nat.digitChar (n / 16), Nat.digitChar (n % 16)])

/-- How a character stands in a string: control characters are escaped. -/
def escape (c : Char) : String :=
  match shortEscapes.find? (·.1 = c) with
  | some (_, text) => text
  | none => if c.toNat < 32 then "\\u" ++ fourDigits c.toNat else String.singleton c

/-- A string in quotes. -/
def quote (s : String) : String := "\"" ++ String.join (s.toList.map escape) ++ "\""

/-- The start of a line at a depth. -/
def indent (depth : Nat) : String := String.ofList (List.replicate (2 * depth) ' ')

/-- Parts in brackets, each on a line of its own. -/
def bracket (opening closing : String) (depth : Nat) (parts : List String) : String :=
  if parts.isEmpty then opening ++ closing
  else
    let body := ",\n".intercalate (parts.map (indent (depth + 1) ++ ·))
    opening ++ "\n" ++ body ++ "\n" ++ indent depth ++ closing

mutual

/-- The text of a value whose first line begins at a depth. -/
def renderAt (depth : Nat) : Json → String
  | null => "null"
  | bool b => if b then "true" else "false"
  | number n => toString n
  | string s => quote s
  | array items => bracket "[" "]" depth (renderItems (depth + 1) items)
  | object fields => bracket "\x7b" "\x7d" depth (renderFields (depth + 1) fields)

/-- The texts of items. -/
def renderItems (depth : Nat) : List Json → List String
  | [] => []
  | item :: items => renderAt depth item :: renderItems depth items

/-- The texts of named values. -/
def renderFields (depth : Nat) : List (String × Json) → List String
  | [] => []
  | (name, value) :: fields =>
    (quote name ++ ": " ++ renderAt depth value) :: renderFields depth fields

end

/-- The text of a value. -/
def render (value : Json) : String := renderAt 0 value

end Json

end ConstLookup.Text
