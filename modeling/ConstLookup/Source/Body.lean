import ConstLookup.Text.Lines

/-!
  The text of a macro body or of a member's value, made plain: continued lines are joined,
  comments removed, and blanks reduced to one between two words.
-/

namespace ConstLookup.Body

open ConstLookup.Text

/-- Put a blank in place of every backslash that ends a line. -/
def joinLines : List Char → List Char
  | [] => []
  | '\\' :: '\r' :: '\n' :: cs => ' ' :: joinLines cs
  | '\\' :: '\n' :: cs => ' ' :: joinLines cs
  | c :: cs => c :: joinLines cs

/-- The text after the first end of a block comment. -/
def afterComment? : List Char → Option (List Char)
  | [] => none
  | '*' :: '/' :: cs => some cs
  | _ :: cs => afterComment? cs

theorem length_afterComment?_lt {cs rest : List Char} (h : afterComment? cs = some rest) :
    rest.length < cs.length := by
  fun_induction afterComment? cs with
  | case1 => cases h
  | case2 cs =>
    cases h
    simp only [List.length_cons]
    omega
  | case3 c cs _ ih =>
    have := ih h
    simp only [List.length_cons]
    omega

/-- Put a blank in place of every block comment; one that does not end stays. -/
def dropBlockComments : List Char → List Char
  | '/' :: '*' :: cs =>
    match _h : afterComment? cs with
    | some rest => ' ' :: dropBlockComments rest
    | none => '/' :: '*' :: cs
  | c :: cs => c :: dropBlockComments cs
  | [] => []
termination_by cs => cs.length
decreasing_by
  · have := length_afterComment?_lt _h
    simp only [List.length_cons]; omega
  · simp

/-- Remove every line comment; `inComment` says that one is open. -/
def dropLineComments (inComment : Bool) : List Char → List Char
  | [] => []
  | '\n' :: cs => '\n' :: dropLineComments false cs
  | '/' :: '/' :: cs => dropLineComments true cs
  | c :: cs => if inComment then dropLineComments true cs else c :: dropLineComments false cs

/-- Make a text plain. -/
def clean (text : String) : String :=
  let plain := dropLineComments false (dropBlockComments (joinLines text.toList))
  " ".intercalate ((words plain).map String.ofList)

end ConstLookup.Body
