import ConstLookup.Define
import ConstLookup.Expr.Evaluate
import ConstLookup.Source.Token
import ConstLookup.Text.Lines

/-!
  The macros defined at a place of a source, and what a condition means there. Inside a condition
  a macro stands for the value of its body, a name without definition for zero, and so does a
  name inside its own expansion: expanding a name closes it for its body, which is why every
  expansion ends.
-/

namespace ConstLookup

open ConstLookup.Text

/-- Names with the text that they stand for, each name once. -/
abbrev Environment := List (String × String)

namespace Environment

/-- The text that a name stands for. -/
def get? (env : Environment) (name : String) : Option String :=
  (env.find? (·.1 = name)).map (·.2)

/-- A name is defined. -/
def isDefined (env : Environment) (name : String) : Bool := (env.get? name).isSome

/-- Remove the definition of a name. -/
def erase (env : Environment) (name : String) : Environment := env.filter (·.1 ≠ name)

/-- Define a name, in place of what it stood for. -/
def insert (env : Environment) (name body : String) : Environment :=
  (name, body) :: env.erase name

/-- The environment that holds the definitions of a command line. In conditions a name without a
text stands for an empty one. -/
def ofDefines (defines : List Define) : Environment :=
  defines.foldl (fun env d => env.insert d.name (d.body.getD "")) []

theorem get?_nil (name : String) : get? [] name = none := rfl

theorem get?_cons (entry : String × String) (env : Environment) (name : String) :
    get? (entry :: env) name = if entry.1 = name then some entry.2 else get? env name := by
  by_cases h : entry.1 = name <;> simp [get?, h]

theorem get?_erase (env : Environment) (name other : String) :
    (env.erase name).get? other = if name = other then none else env.get? other := by
  induction env with
  | nil => simp [erase, get?]
  | cons entry env ih =>
    by_cases he : entry.1 = name
    · have : erase (entry :: env) name = erase env name := by simp [erase, he]
      rw [this, ih, get?_cons, he]
      split <;> rfl
    · have : erase (entry :: env) name = entry :: erase env name := by simp [erase, he]
      rw [this, get?_cons, ih, get?_cons]
      by_cases ho : entry.1 = other
      · have : ¬ name = other := fun h => he (ho.trans h.symm)
        simp [ho, this]
      · simp [ho]

theorem get?_insert (env : Environment) (name body other : String) :
    (env.insert name body).get? other = if name = other then some body else env.get? other := by
  rw [insert, get?_cons, get?_erase]
  split <;> rfl

theorem length_erase_lt {env : Environment} {name : String} (h : env.isDefined name = true) :
    (env.erase name).length < env.length := by
  induction env with
  | nil => cases h
  | cons entry env ih =>
    by_cases he : entry.1 = name
    · have : erase (entry :: env) name = erase env name := by simp [erase, he]
      rw [this]
      exact Nat.lt_succ_of_le (List.length_filter_le _ _)
    · have : erase (entry :: env) name = entry :: erase env name := by simp [erase, he]
      rw [this]
      refine Nat.succ_lt_succ (ih ?_)
      simpa [isDefined, get?_cons, he] using h

end Environment

namespace Condition

/-! ## The operator `defined` -/

/-- The identifier that a text begins with, and the text after it. -/
def name? : List Char → Option (List Char × List Char)
  | [] => none
  | c :: cs =>
    if isIdentStart c then some (c :: cs.takeWhile isWord, cs.dropWhile isWord) else none

/-- The name after the word `defined`, bare or in parentheses, and the text after it. -/
def operand? (cs : List Char) : Option (List Char × List Char) :=
  match cs.dropWhile isBlank with
  | '(' :: inside =>
    match name? (inside.dropWhile isBlank) with
    | some (name, rest) =>
      match rest.dropWhile isBlank with
      | ')' :: rest => some (name, rest)
      | _ => none
    | none => none
  | start => name? start

theorem length_dropWhile_le (p : Char → Bool) (cs : List Char) :
    (cs.dropWhile p).length ≤ cs.length :=
  (List.dropWhile_suffix p).length_le

theorem length_name?_lt {cs name rest : List Char} (h : name? cs = some (name, rest)) :
    rest.length < cs.length := by
  cases cs with
  | nil => cases h
  | cons c cs =>
    simp only [name?] at h
    split at h
    · cases h
      exact Nat.lt_succ_of_le (length_dropWhile_le _ _)
    · cases h

theorem length_operand?_lt {cs name rest : List Char} (h : operand? cs = some (name, rest)) :
    rest.length < cs.length := by
  have blanks := length_dropWhile_le isBlank cs
  unfold operand? at h
  split at h
  · next inside hi =>
    rw [hi] at blanks
    have open' := length_dropWhile_le isBlank inside
    split at h
    · next n r hn =>
      have word := length_name?_lt hn
      split at h
      · next r' hr =>
        have close := length_dropWhile_le isBlank r
        rw [hr] at close
        cases h
        simp only [List.length_cons] at blanks close
        omega
      · cases h
    · cases h
  · next start _ =>
    have word := length_name?_lt h
    omega

/-- The operand of an operator `defined` that a text begins with, and the text after it. -/
def operator? (cs : List Char) : Option (List Char × List Char) :=
  (after? "defined".toList cs).bind operand?

theorem length_operator?_lt {cs name rest : List Char} (h : operator? cs = some (name, rest)) :
    rest.length < cs.length := by
  obtain ⟨more, hm, ho⟩ := Option.bind_eq_some_iff.mp h
  have shorter := length_operand?_lt ho
  unfold after? at hm
  split at hm
  · cases hm
    rw [List.length_drop] at shorter
    omega
  · cases hm

/-- Replace the operator `defined` and its operand by one or zero; `inWord` says that a word
character stands before the text. No word goes on after an operand. -/
def expandFrom (env : Environment) (inWord : Bool) : List Char → List Char
  | [] => []
  | c :: cs =>
    match _h : operator? (c :: cs) with
    | some (name, rest) =>
      if inWord then c :: expandFrom env true cs
      else
        (if env.isDefined (String.ofList name) then '1' else '0') :: expandFrom env false rest
    | none => c :: expandFrom env (isWord c) cs
termination_by cs => cs.length
decreasing_by
  · simp
  · exact length_operator?_lt _h
  · simp

/-- Replace the operator `defined` and its operand by one or zero. -/
def expand (env : Environment) (text : String) : String :=
  String.ofList (expandFrom env false text.toList)

/-! ## Values -/

/-- The value of a name in a condition, where `unopened` holds the macros that are not being
expanded. -/
def value? (env unopened : Environment) (name : String) : Option Number :=
  match _h : unopened.get? name with
  | none => some (.int 0)
  | some body =>
    (evaluate (fun other => value? env (unopened.erase name) other) (expand env body)).toOption.join
termination_by unopened.length
decreasing_by
  exact Environment.length_erase_lt (by simp [Environment.isDefined, _h])

/-- Whether the branch under a condition is taken; a condition that has no value is true. -/
def holds (env : Environment) (text : String) : Bool :=
  match evaluate (value? env env) (expand env text) with
  | .ok (some v) => v.isTrue
  | _ => true

end Condition

namespace Source.Test

/-- Whether the branch under a test is taken. -/
def holds (env : Environment) : Test → Bool
  | condition (some text) => Condition.holds env text
  | condition none => true
  | defined name => name.any env.isDefined
  | undefined name => !name.any env.isDefined

end Source.Test

end ConstLookup
