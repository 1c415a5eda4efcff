import ConstLookup.Source.Lexer
import Mathlib.Data.Bool.AllAny
import Mathlib.Data.List.Forall2

/-!
  The conditions of directives. A formula is built from numbers, names, the operator `defined`,
  parentheses, calls and operators; its tokens form a condition, whatever blanks stand between
  them.
-/

namespace ConstLookup.Source

open ConstLookup.Text ConstLookup.Source.Lexer

/-- A condition ends after an operand, outside of all parentheses. -/
theorem isConditionFrom_nil (operand : Bool) (opened : List Bool) :
    isConditionFrom operand opened [] = (!operand && opened.isEmpty) := by
  rw [isConditionFrom.eq_def]

/-! ## Formulas -/

/-- A token of a condition. -/
inductive Atom where
  | name (text : List Char)
  | number (text : List Char)
  | mark (spelling : String)
  deriving DecidableEq, Repr

/-- The characters of a token. -/
def Atom.text : Atom → List Char
  | name text => text
  | number text => text
  | mark spelling => spelling.toList

/-- The kind of a token. -/
def Atom.kind : Atom → TokenKind
  | name _ => .word
  | number _ => .number
  | mark _ => .mark

mutual

/-- A condition. -/
inductive Formula where
  | number (text : List Char)
  | name (text : List Char)
  /-- The operator `defined` before a bare name. -/
  | isDefined (text : List Char)
  /-- The operator `defined` before a name in parentheses. -/
  | isDefinedIn (text : List Char)
  | parentheses (f : Formula)
  | unary (sign : String) (f : Formula)
  | binary (sign : String) (l r : Formula)
  /-- A call without arguments. -/
  | emptyCall (name : List Char)
  | call (name : List Char) (arguments : Arguments)

/-- The arguments of a call. -/
inductive Arguments where
  | last (f : Formula)
  | more (f : Formula) (rest : Arguments)

end

/-- The operators of one operand. -/
def unarySigns : List String := ["!", "~", "-", "+"]

mutual

/-- The tokens of a condition in order. -/
def Formula.atoms : Formula → List Atom
  | .number text => [.number text]
  | .name text => [.name text]
  | .isDefined text => [.name "defined".toList, .name text]
  | .isDefinedIn text => [.name "defined".toList, .mark "(", .name text, .mark ")"]
  | .parentheses f => .mark "(" :: (f.atoms ++ [.mark ")"])
  | .unary sign f => .mark sign :: f.atoms
  | .binary sign l r => l.atoms ++ .mark sign :: r.atoms
  | .emptyCall name => [.name name, .mark "(", .mark ")"]
  | .call name arguments => .name name :: .mark "(" :: (arguments.atoms ++ [.mark ")"])

/-- The tokens of arguments, with commas between them. -/
def Arguments.atoms : Arguments → List Atom
  | .last f => f.atoms
  | .more f rest => f.atoms ++ .mark "," :: rest.atoms

end

mutual

/-- The signs of a condition are operators, and no name is the operator `defined`. -/
def Formula.Proper : Formula → Prop
  | .number _ => True
  | .name text => text ≠ "defined".toList
  | .isDefined _ => True
  | .isDefinedIn _ => True
  | .parentheses f => f.Proper
  | .unary sign f => sign ∈ unarySigns ∧ f.Proper
  | .binary sign l r => sign ∈ conditionOperators ∧ l.Proper ∧ r.Proper
  | .emptyCall name => name ≠ "defined".toList
  | .call name arguments => name ≠ "defined".toList ∧ arguments.Proper

/-- All arguments are proper conditions. -/
def Arguments.Proper : Arguments → Prop
  | .last f => f.Proper
  | .more f rest => f.Proper ∧ rest.Proper

end

/-! ## The tokens of a formula form a condition -/

/-- The token is a given one of a condition. -/
structure Atom.Is (a : Atom) (t : Token) : Prop where
  kind : t.kind = a.kind
  text : t.text = a.text

theorem Atom.Is.isWord {a : Atom} {t : Token} (h : a.Is t) : t.isWord = decide (a.kind = .word) := by
  rw [Token.isWord, h.kind]

theorem Atom.Is.isWordOf {text : List Char} {t : Token} (h : (Atom.name text).Is t)
    (spelling : String) : t.isWordOf spelling = decide (text = spelling.toList) := by
  rw [Token.isWordOf, h.kind, h.text, Atom.kind, Atom.text, decide_eq_true rfl, Bool.true_and]

theorem Atom.Is.isMark {m : String} {t : Token} (h : (Atom.mark m).Is t) (spelling : String) :
    t.isMark spelling = decide (m = spelling) := by
  rw [Token.isMark, h.kind, h.text]
  simp [Atom.kind, Atom.text, String.toList_inj]

theorem Atom.Is.isMark_eq_false {a : Atom} {t : Token} (h : a.Is t) (hk : a.kind ≠ .mark)
    (spelling : String) : t.isMark spelling = false := by
  rw [Token.isMark, h.kind]
  simp [hk]

theorem Atom.Is.any_isMark {m : String} {t : Token} (h : (Atom.mark m).Is t)
    (signs : List String) : signs.any t.isMark = decide (m ∈ signs) := by
  rw [Bool.eq_iff_iff, List.any_eq_true, decide_eq_true_iff]
  simp [h.isMark]

theorem Atom.Is.any_isMark_eq_false {a : Atom} {t : Token} (h : a.Is t) (hk : a.kind ≠ .mark)
    (signs : List String) : signs.any t.isMark = false := by
  simp [List.any_eq_false, h.isMark_eq_false hk]

/-- The first token, if there is one, does not open parentheses. -/
def OpensNot (ts : List Token) : Prop := ∀ t ∈ ts.head?, t.isMark "(" = false

section Reads

variable {t : Token} {ts : List Token} {opened : List Bool}

theorem reads_number {text : List Char} (h : (Atom.number text).Is t) :
    isConditionFrom true opened (t :: ts) = isConditionFrom false opened ts := by
  have sign := h.any_isMark_eq_false (by simp [Atom.kind]) ["!", "~", "-", "+"]
  rw [isConditionFrom.eq_def]
  simp [sign, h.isMark_eq_false (by simp [Atom.kind]), h.kind, Atom.kind]

theorem reads_name {text : List Char} (h : (Atom.name text).Is t)
    (other : text ≠ "defined".toList) (hn : OpensNot ts) :
    isConditionFrom true opened (t :: ts) = isConditionFrom false opened ts := by
  have sign := h.any_isMark_eq_false (by simp [Atom.kind]) ["!", "~", "-", "+"]
  have isDefined : t.isWordOf "defined" = false := by rw [h.isWordOf, decide_eq_false other]
  rw [isConditionFrom.eq_def]
  simp only [sign, h.isMark_eq_false (by simp [Atom.kind]), isDefined, h.isWord, h.kind, Atom.kind]
  match ts, hn with
  | [], _ => simp
  | [a], _ => simp
  | a :: b :: rest, hn => simp [hn a rfl]

theorem reads_unary {m : String} (h : (Atom.mark m).Is t) (hm : m ∈ unarySigns) :
    isConditionFrom true opened (t :: ts) = isConditionFrom true opened ts := by
  have sign : ["!", "~", "-", "+"].any t.isMark = true := by
    rw [h.any_isMark]
    exact decide_eq_true hm
  rw [isConditionFrom.eq_def]
  simp [sign]

theorem reads_binary {m : String} (h : (Atom.mark m).Is t) (hm : m ∈ conditionOperators) :
    isConditionFrom false opened (t :: ts) = isConditionFrom true opened ts := by
  have sign : conditionOperators.any t.isMark = true := by
    rw [h.any_isMark]
    exact decide_eq_true hm
  rw [isConditionFrom.eq_def]
  simp [sign]

theorem reads_open (h : (Atom.mark "(").Is t) :
    isConditionFrom true opened (t :: ts) = isConditionFrom true (false :: opened) ts := by
  have sign := h.any_isMark ["!", "~", "-", "+"]
  rw [isConditionFrom.eq_def]
  simp [sign, h.isMark]

theorem reads_close {arguments : Bool} (h : (Atom.mark ")").Is t) :
    isConditionFrom false (arguments :: opened) (t :: ts) = isConditionFrom false opened ts := by
  have sign : conditionOperators.any t.isMark = false := by
    rw [h.any_isMark]
    decide
  rw [isConditionFrom.eq_def]
  simp [sign, h.isMark]

theorem reads_comma (h : (Atom.mark ",").Is t) :
    isConditionFrom false (true :: opened) (t :: ts) = isConditionFrom true (true :: opened) ts := by
  have sign : conditionOperators.any t.isMark = false := by
    rw [h.any_isMark]
    decide
  rw [isConditionFrom.eq_def]
  simp [sign, h.isMark]

theorem reads_isDefined {text : List Char} {n : Token}
    (h : (Atom.name "defined".toList).Is t) (hn : (Atom.name text).Is n) :
    isConditionFrom true opened (t :: n :: ts) = isConditionFrom false opened ts := by
  have sign := h.any_isMark_eq_false (by simp [Atom.kind]) ["!", "~", "-", "+"]
  have isDefined : t.isWordOf "defined" = true := by rw [h.isWordOf, decide_eq_true rfl]
  rw [isConditionFrom.eq_def]
  simp only [sign, h.isMark_eq_false (by simp [Atom.kind]), isDefined, h.kind, Atom.kind]
  match ts with
  | [] => simp [hn.isWord, Atom.kind]
  | [a] => simp [hn.isWord, Atom.kind]
  | a :: b :: rest => simp [hn.isWord, Atom.kind]

theorem reads_isDefinedIn {text : List Char} {a n b : Token}
    (h : (Atom.name "defined".toList).Is t) (ha : (Atom.mark "(").Is a) (hn : (Atom.name text).Is n)
    (hb : (Atom.mark ")").Is b) :
    isConditionFrom true opened (t :: a :: n :: b :: ts) = isConditionFrom false opened ts := by
  have sign := h.any_isMark_eq_false (by simp [Atom.kind]) ["!", "~", "-", "+"]
  have isDefined : t.isWordOf "defined" = true := by rw [h.isWordOf, decide_eq_true rfl]
  rw [isConditionFrom.eq_def]
  simp [sign, h.isMark_eq_false (by simp [Atom.kind]), isDefined, h.kind, Atom.kind, hn.isWord,
    ha.isWord, ha.isMark, hb.isMark]

theorem reads_emptyCall {text : List Char} {a b : Token} (h : (Atom.name text).Is t)
    (other : text ≠ "defined".toList) (ha : (Atom.mark "(").Is a) (hb : (Atom.mark ")").Is b) :
    isConditionFrom true opened (t :: a :: b :: ts) = isConditionFrom false opened ts := by
  have sign := h.any_isMark_eq_false (by simp [Atom.kind]) ["!", "~", "-", "+"]
  have isDefined : t.isWordOf "defined" = false := by rw [h.isWordOf, decide_eq_false other]
  rw [isConditionFrom.eq_def]
  simp [sign, h.isMark_eq_false (by simp [Atom.kind]), isDefined, h.kind, Atom.kind, h.isWord,
    ha.isMark, hb.isMark]

theorem reads_call {text : List Char} {a b : Token} (h : (Atom.name text).Is t)
    (other : text ≠ "defined".toList) (ha : (Atom.mark "(").Is a) (hb : b.isMark ")" = false) :
    isConditionFrom true opened (t :: a :: b :: ts) =
      isConditionFrom true (true :: opened) (b :: ts) := by
  have sign := h.any_isMark_eq_false (by simp [Atom.kind]) ["!", "~", "-", "+"]
  have isDefined : t.isWordOf "defined" = false := by rw [h.isWordOf, decide_eq_false other]
  rw [isConditionFrom.eq_def]
  simp [sign, h.isMark_eq_false (by simp [Atom.kind]), isDefined, h.kind, Atom.kind, h.isWord,
    ha.isMark, hb]

end Reads

/-- The tokens are those of a condition. -/
def Spells (as : List Atom) (ts : List Token) : Prop := List.Forall₂ Atom.Is as ts

theorem Spells.cons {a : Atom} {as : List Atom} {ts : List Token} (h : Spells (a :: as) ts) :
    ∃ t us, ts = t :: us ∧ a.Is t ∧ Spells as us := by
  obtain ⟨t, us, is, rest, rfl⟩ := List.forall₂_cons_left_iff.mp h
  exact ⟨t, us, rfl, is, rest⟩

theorem Spells.append {as bs : List Atom} {ts : List Token} (h : Spells (as ++ bs) ts) :
    ∃ us vs, ts = us ++ vs ∧ Spells as us ∧ Spells bs vs := by
  refine ⟨ts.take as.length, ts.drop as.length, (List.take_append_drop _ _).symm, ?_, ?_⟩
  · have front := List.forall₂_take as.length h
    rwa [List.take_left] at front
  · have back := List.forall₂_drop as.length h
    rwa [List.drop_left] at back

theorem Atom.Is.opensNot {m : String} {t : Token} {ts : List Token} (h : (Atom.mark m).Is t)
    (hm : m ≠ "(") : OpensNot (t :: ts) := by
  rintro _ ⟨⟩
  rw [h.isMark, decide_eq_false hm]

/-- A formula has a first token, which does not close parentheses. -/
theorem Formula.first (f : Formula) (proper : f.Proper) {ts : List Token} (h : Spells f.atoms ts) :
    ∃ t us, ts = t :: us ∧ t.isMark ")" = false := by
  cases f with
  | binary sign l r =>
    obtain ⟨us, vs, rfl, hl, -⟩ := h.append
    obtain ⟨t, us, rfl, ht⟩ := Formula.first l proper.2.1 hl
    exact ⟨t, us ++ vs, rfl, ht⟩
  | unary sign f =>
    obtain ⟨t, us, rfl, ht, -⟩ := h.cons
    refine ⟨t, us, rfl, ?_⟩
    rw [ht.isMark, decide_eq_false]
    rintro rfl
    exact absurd proper.1 (by decide)
  | parentheses f =>
    obtain ⟨t, us, rfl, ht, -⟩ := h.cons
    exact ⟨t, us, rfl, by rw [ht.isMark]; rfl⟩
  | number | name | isDefined | isDefinedIn | emptyCall | call =>
    obtain ⟨t, us, rfl, ht, -⟩ := h.cons
    exact ⟨t, us, rfl, ht.isMark_eq_false (by simp [Atom.kind]) _⟩

theorem Arguments.first (as : Arguments) (proper : as.Proper) {ts : List Token}
    (h : Spells as.atoms ts) : ∃ t us, ts = t :: us ∧ t.isMark ")" = false := by
  cases as with
  | last f => exact f.first proper h
  | more f rest =>
    obtain ⟨us, vs, rfl, hf, -⟩ := h.append
    obtain ⟨t, us, rfl, ht⟩ := f.first proper.1 hf
    exact ⟨t, us ++ vs, rfl, ht⟩

mutual

/-- Where an operand is to come, the tokens of a formula are read as one. -/
theorem Formula.reads (f : Formula) (proper : f.Proper) {opened : List Bool} {ts tail : List Token}
    (h : Spells f.atoms ts) (hn : OpensNot tail) :
    isConditionFrom true opened (ts ++ tail) = isConditionFrom false opened tail := by
  cases f with
  | number text =>
    obtain ⟨t, us, rfl, ht, ⟨⟩⟩ := h.cons
    exact reads_number ht
  | name text =>
    obtain ⟨t, us, rfl, ht, ⟨⟩⟩ := h.cons
    exact reads_name ht proper hn
  | isDefined text =>
    obtain ⟨t, us, rfl, ht, rest⟩ := h.cons
    obtain ⟨n, us, rfl, hname, ⟨⟩⟩ := rest.cons
    exact reads_isDefined ht hname
  | isDefinedIn text =>
    obtain ⟨t, us, rfl, ht, rest⟩ := h.cons
    obtain ⟨a, us, rfl, ha, rest⟩ := rest.cons
    obtain ⟨n, us, rfl, hname, rest⟩ := rest.cons
    obtain ⟨b, us, rfl, hb, ⟨⟩⟩ := rest.cons
    exact reads_isDefinedIn ht ha hname hb
  | parentheses f =>
    obtain ⟨a, us, rfl, ha, rest⟩ := h.cons
    obtain ⟨inner, close, rfl, hf, rest⟩ := rest.append
    obtain ⟨b, us, rfl, hb, ⟨⟩⟩ := rest.cons
    simp only [List.cons_append, List.append_assoc, List.nil_append]
    rw [reads_open ha, f.reads proper hf (hb.opensNot (by decide))]
    exact reads_close hb
  | unary sign f =>
    obtain ⟨t, us, rfl, ht, hf⟩ := h.cons
    rw [List.cons_append, reads_unary ht proper.1]
    exact f.reads proper.2 hf hn
  | binary sign l r =>
    obtain ⟨left, right, rfl, hl, rest⟩ := h.append
    obtain ⟨t, us, rfl, ht, hr⟩ := rest.cons
    have other : sign ≠ "(" := by
      rintro rfl
      exact absurd proper.1 (by decide)
    rw [List.append_assoc, List.cons_append, l.reads proper.2.1 hl (ht.opensNot other),
      reads_binary ht proper.1]
    exact r.reads proper.2.2 hr hn
  | emptyCall name =>
    obtain ⟨t, us, rfl, ht, rest⟩ := h.cons
    obtain ⟨a, us, rfl, ha, rest⟩ := rest.cons
    obtain ⟨b, us, rfl, hb, ⟨⟩⟩ := rest.cons
    exact reads_emptyCall ht proper ha hb
  | call name arguments =>
    obtain ⟨t, us, rfl, ht, rest⟩ := h.cons
    obtain ⟨a, us, rfl, ha, rest⟩ := rest.cons
    obtain ⟨inner, close, rfl, has, rest⟩ := rest.append
    obtain ⟨c, us, rfl, hc, ⟨⟩⟩ := rest.cons
    obtain ⟨b, us, rfl, hb⟩ := arguments.first proper.2 has
    simp only [List.cons_append, List.append_assoc, List.nil_append]
    rw [reads_call ht proper.1 ha hb]
    exact (arguments.reads proper.2 has (hc.opensNot (by decide))).trans (reads_close hc)

/-- Where the first argument of a call is to come, the tokens of arguments are read as such. -/
theorem Arguments.reads (as : Arguments) (proper : as.Proper) {opened : List Bool}
    {ts tail : List Token} (h : Spells as.atoms ts) (hn : OpensNot tail) :
    isConditionFrom true (true :: opened) (ts ++ tail) =
      isConditionFrom false (true :: opened) tail := by
  cases as with
  | last f => exact f.reads proper h hn
  | more f rest =>
    obtain ⟨us, vs, rfl, hf, others⟩ := h.append
    obtain ⟨t, vs, rfl, ht, hrest⟩ := others.cons
    rw [List.append_assoc, List.cons_append, f.reads proper.1 hf (ht.opensNot (by decide)),
      reads_comma ht]
    exact rest.reads proper.2 hrest hn

end

/-- The tokens of a formula form a condition. -/
theorem Formula.isCondition {f : Formula} (proper : f.Proper) {ts : List Token}
    (h : Spells f.atoms ts) : Lexer.isCondition ts = true := by
  have reads : isConditionFrom true [] (ts ++ []) = isConditionFrom false [] [] :=
    f.reads proper h nofun
  rw [List.append_nil] at reads
  rw [Lexer.isCondition, reads, isConditionFrom_nil]
  rfl

/-- A condition that takes all tokens of a line is the longest start of the line. -/
theorem conditionStart_eq_some {ts : List Token} (h : Lexer.isCondition ts = true) :
    conditionStart ts = some ts := by
  rw [conditionStart, List.range_succ, List.reverse_append, List.map_append]
  simp [h]

end ConstLookup.Source
