import ConstLookup.Proofs.Source.LineTokens
import ConstLookup.Source.Extract

/-!
  The members of enums are named by words of C (`declarations_named`). The lexer makes words only
  of characters that a word may hold. Blocks, the forms of enums in them, and the branches taken
  hold no tokens but those of the source, so what is true of every token is true of every
  content of the blocks (`Blocks.All`) and kept by all that reads them (`All.run`).
-/

namespace ConstLookup.Source

open ConstLookup.Text

/-! ## Contents of blocks -/

namespace Blocks

/-- All contents, in every branch, have the property. -/
def All {α : Type} (P : α → Prop) : Blocks α → Prop
  | done => True
  | content a rest => P a ∧ rest.All P
  | conditional _ body otherwise rest => body.All P ∧ otherwise.All P ∧ rest.All P

section All

variable {α σ : Type} {P : α → Prop} {a b : Blocks α}

theorem All.append (h : a.All P) (h' : b.All P) : (a.append b).All P := by
  induction a with
  | done => exact h'
  | content c rest ih => exact ⟨h.1, ih h.2⟩
  | conditional test body otherwise rest _ _ ih => exact ⟨h.1, h.2.1, ih h.2.2⟩

theorem All.drop (h : a.All P) (n : Nat) : (a.drop n).All P := by
  fun_induction Blocks.drop n a with
  | case1 n c rest ih => exact ih h.2
  | case2 n test body otherwise rest ih => exact ih h.2.2
  | case3 => exact h

/-- What every content keeps holds after the blocks, whichever branches are taken. -/
theorem All.run {holds : σ → Test → Bool} {step : σ → α → σ} {Inv : σ → Prop} (h : a.All P)
    (keeps : ∀ s c, P c → Inv s → Inv (step s c)) {s : σ} (start : Inv s) :
    Inv (a.run holds step s) := by
  induction a generalizing s with
  | done => exact start
  | content c rest ih => exact ih h.2 (keeps s c h.1 start)
  | conditional test body otherwise rest ihb iho ih =>
    rw [Blocks.run]
    refine ih h.2.2 ?_
    split
    · exact ihb h.1 start
    · exact iho h.2.1 start

end All

section OfTokens

variable {P : Token → Prop}

/-- All contents of a level have the property. -/
structure Level.Holds (P : Token → Prop) (l : Level) : Prop where
  branch : l.branch.All P
  otherwise : l.otherwise.All P
  later : l.later.All P

theorem Level.Holds.all {l : Level} (h : l.Holds P) : l.all.All P := h.branch.append h.later

theorem Level.holds_start : ({} : Level).Holds P := ⟨trivial, trivial, trivial⟩

theorem before_holds {t : Token} (ht : P t) {levels : Level × List Level}
    (inner : levels.1.Holds P) (outer : ∀ l ∈ levels.2, l.Holds P) :
    (before t levels).1.Holds P ∧ ∀ l ∈ (before t levels).2, l.Holds P := by
  obtain ⟨level, levels⟩ := levels
  simp only [before]
  split
  · exact ⟨Level.holds_start, List.forall_mem_cons.mpr ⟨inner, outer⟩⟩
  · exact ⟨⟨trivial, inner.all, inner.all⟩, outer⟩
  · exact ⟨⟨trivial, ⟨inner.branch, inner.otherwise, trivial⟩, inner.all⟩, outer⟩
  · split
    · next next levels =>
      obtain ⟨first, outer⟩ := List.forall_mem_cons.mp outer
      exact ⟨⟨⟨inner.branch, inner.otherwise, first.branch⟩, first.otherwise, first.later⟩, outer⟩
    · exact ⟨⟨⟨inner.branch, inner.otherwise, trivial⟩, trivial, trivial⟩, List.forall_mem_nil _⟩
  · exact ⟨⟨⟨ht, inner.branch⟩, inner.otherwise, inner.later⟩, outer⟩

theorem ofTokens_all {ts : List Token} (h : ∀ t ∈ ts, P t) : (ofTokens ts).All P := by
  have levels : (ts.foldr before ({}, [])).1.Holds P ∧
      ∀ l ∈ (ts.foldr before ({}, [])).2, l.Holds P := by
    induction ts with
    | nil => exact ⟨Level.holds_start, nofun⟩
    | cons t ts ih =>
      obtain ⟨ht, h⟩ := List.forall_mem_cons.mp h
      exact before_holds ht (ih h).1 (ih h).2
  have joined {outer : List Level} (all : ∀ l ∈ outer, l.Holds P) {blocks : Blocks Token}
      (h : blocks.All P) :
      (outer.foldl (fun blocks level => blocks.append level.all) blocks).All P := by
    induction outer generalizing blocks with
    | nil => exact h
    | cons l outer ih =>
      obtain ⟨first, all⟩ := List.forall_mem_cons.mp all
      exact ih all (h.append first.all)
  exact joined levels.2 levels.1.all

end OfTokens

end Blocks

/-! ## Words of the lexer -/

/-- The token is named by a word, if it is a word. -/
def Token.Named (t : Token) : Prop := t.isWord = true → IsName t.text

namespace Lexer

theorem lexeme_word {marks : List String} {c : Char} {cs : List Char}
    (h : (lexeme marks c cs).1 = .word) :
    IsName (consumed (c :: cs) (lexeme marks c cs).2.1) := by
  unfold lexeme at h ⊢
  split at h
  · split at h <;> cases h
  · split at h
    · next start =>
      rw [if_pos start]
      have whole : c :: cs = (c :: cs.takeWhile continuesWord) ++ cs.dropWhile continuesWord := by
        rw [List.cons_append, List.takeWhile_append_dropWhile]
      rw [whole, consumed_append]
      exact ⟨start, List.all_eq_true.mp List.all_takeWhile⟩
    · split at h
      · cases h
      · split at h <;> cases h

theorem hash_not_word (cs : List Char) : (hash cs).1 ≠ .word := by
  unfold hash
  dsimp only
  split <;> exact nofun

/-- What is true of every kind of token with its text is true of all tokens of a text. -/
theorem tokens_all {P : TokenKind → List Char → Prop}
    (directives : ∀ cs, P (Lexer.hash cs).1 (consumed ('#' :: cs) (Lexer.hash cs).2.1))
    (others : ∀ c cs, P (lexeme longMarks c cs).1 (consumed (c :: cs) (lexeme longMarks c cs).2.1))
    (cs : List Char) : ∀ t ∈ tokens cs, P t.kind t.text := by
  have all (steps : Nat) (position : Position) (cs : List Char) :
      ∀ t ∈ tokensFrom steps position cs, P t.kind t.text := by
    fun_induction tokensFrom steps position cs with
    | case1 => nofun
    | case2 => nofun
    | case3 steps position cs c more _ gap start kind rest sound read text ih =>
      refine List.forall_mem_cons.mpr ⟨?_, ih⟩
      show P kind (consumed (c :: more) rest)
      split at read
      · next sign =>
        have found := directives more
        rwa [read, ← sign] at found
      · have found := others c more
        rwa [read] at found
  unfold tokens
  split <;> exact all _ _ _

theorem tokens_named (cs : List Char) : ∀ t ∈ tokens cs, t.Named :=
  tokens_all (P := fun kind text => decide (kind = .word) = true → IsName text)
    (fun cs word => absurd (of_decide_eq_true word) (hash_not_word cs))
    (fun _ _ word => lexeme_word (of_decide_eq_true word)) cs

end Lexer

/-! ## Forms of enums -/

/-- The member is named by a word. -/
def MemberForm.Named (m : MemberForm) : Prop := IsName m.name.toList

/-- All members, in every branch, are named by words. -/
def EnumForm.Named (form : EnumForm) : Prop := form.members.All MemberForm.Named

namespace EnumForm

theorem inside_named {blocks : Blocks Token} (h : blocks.All Token.Named) (depth : Nat) :
    (inside depth blocks).1.All Token.Named := by
  fun_induction inside depth blocks with
  | case1 => trivial
  | case2 => trivial
  | case3 depth t rest _ more taken read ih =>
    rw [read] at ih
    exact ⟨h.1, ih h.2⟩
  | case4 depth test body otherwise rest more taken read ih =>
    rw [read] at ih
    exact ⟨h.1, h.2.1, ih h.2.2⟩

theorem addMember_named {written : List Token} (h : ∀ t ∈ written, t.Named)
    {rest : Blocks MemberForm} (hrest : rest.All MemberForm.Named) :
    (addMember written rest).All MemberForm.Named := by
  unfold addMember
  split
  · exact hrest
  · next name more =>
    split
    · next word =>
      refine ⟨?_, hrest⟩
      rw [MemberForm.Named, Token.spelling, String.toList_ofList]
      exact h name List.mem_cons_self word
    · exact hrest

theorem membersFrom_named {written : List Token} (hw : ∀ t ∈ written, t.Named) {depth : Nat}
    {blocks : Blocks Token} (h : blocks.All Token.Named) :
    (membersFrom written depth blocks).All MemberForm.Named := by
  fun_induction membersFrom written depth blocks with
  | case1 written depth => exact addMember_named hw trivial
  | case2 written depth t rest _ ih => exact addMember_named hw (ih nofun h.2)
  | case3 written depth t rest _ ih =>
    refine ih (fun u hu => ?_) h.2
    rcases List.mem_append.mp hu with hu | hu
    · exact hw u hu
    · exact List.mem_singleton.mp hu ▸ h.1
  | case4 written depth test body otherwise rest ihb iho ih =>
    exact addMember_named hw ⟨ihb nofun h.1, iho nofun h.2.1, ih nofun h.2.2⟩

theorem ofBlocks?_named {position : Position} {blocks : Blocks Token}
    (h : blocks.All Token.Named) {form : EnumForm} {taken : Nat}
    (found : ofBlocks? position blocks = some (form, taken)) : form.Named := by
  obtain ⟨-, same⟩ := Option.ite_none_right_eq_some.mp found
  cases same
  exact membersFrom_named (List.forall_mem_nil _) (inside_named (h.drop _) 0)

theorem ofTypedef?_named {blocks : Blocks Token} (h : blocks.All Token.Named) {form : EnumForm}
    {taken : Nat} (found : ofTypedef? blocks = some (some form, taken)) : form.Named := by
  simp only [ofTypedef?] at found
  split at found
  · next t rest start =>
    have all := start ▸ h.drop (qualifiersLength false 0 blocks)
    split at found
    · split at found
      · next inner taken' body =>
        cases found
        have named : inner.Named := ofBlocks?_named all.2 body
        exact named
      · cases found
    · cases found
  · cases found

end EnumForm

/-! ## Parts and declarations -/

/-- The members of the enum, if the part is one, are named by words. -/
def Part.Named : Part → Prop
  | .enumeration form => form.Named
  | _ => True

theorem Part.ofDirective?_named {position : Position} {d : Directive} {part : Part}
    (h : Part.ofDirective? position d = some part) : part.Named := by
  unfold Part.ofDirective? at h
  split at h <;> cases h <;> trivial

/-- What is true of the directives and of the enums of a source is true of its parts. -/
theorem partsFrom_all {P : Token → Prop} {Q : Part → Prop}
    (directives : ∀ t d part, P t → t.kind = .directive d →
      Part.ofDirective? t.position d = some part → Q part)
    (enums : ∀ form position blocks taken, blocks.All P →
      EnumForm.ofBlocks? position blocks = some (form, taken) ∨
        EnumForm.ofTypedef? blocks = some (some form, taken) → Q (.enumeration form))
    {blocks : Blocks Token} (h : blocks.All P) (skip : Nat) : (partsFrom skip blocks).All Q := by
  fun_induction partsFrom skip blocks with
  | case1 => trivial
  | case2 test body otherwise rest skip ih => exact ih h.2.2
  | case3 test body otherwise rest ihb iho ih => exact ⟨ihb h.1, iho h.2.1, ih h.2.2⟩
  | case4 t rest skip ih => exact ih h.2
  | case5 t rest d kind part found ih => exact ⟨directives t d part h.1 kind found, ih h.2⟩
  | case7 t rest _ _ form taken found ih =>
    exact ⟨enums form t.position rest taken h.2 (.inr found), ih h.2⟩
  | case10 t rest _ _ _ form taken found ih =>
    exact ⟨enums form t.position rest taken h.2 (.inl found), ih h.2⟩
  | case6 | case8 | case9 | case11 | case12 | case13 => rename_i ih; exact ih h.2

theorem partsFrom_named {blocks : Blocks Token} (h : blocks.All Token.Named) (skip : Nat) :
    (partsFrom skip blocks).All Part.Named := by
  refine partsFrom_all (fun t d part _ _ => Part.ofDirective?_named) ?_ h skip
  rintro form position blocks taken h (found | found)
  · exact EnumForm.ofBlocks?_named h found
  · exact EnumForm.ofTypedef?_named h found

/-- Every enum read so far is declared by a form whose members are named by words. -/
def Reading.Named (file : String) (r : Reading) : Prop :=
  ∀ e ∈ r.enums, ∃ form : EnumForm, form.Named ∧ ∃ env, form.declare? file env = some e

theorem Reading.Named.step {file : String} {r : Reading} (h : r.Named file) {part : Part}
    (named : part.Named) : (r.step file part).Named file := by
  cases part with
  | definition | functionDefinition | removal => exact h
  | enumeration form =>
    rw [Reading.step]
    split
    · next e declared =>
      exact List.forall_mem_cons.mpr ⟨⟨form, named, r.environment, declared⟩, h⟩
    · exact h

/-- Every enum of a source is declared by a form whose members are named by words. -/
theorem declarations_named (env : Environment) (file source : String) :
    ∀ e ∈ (declarations env file source).1.enums, ∃ form : EnumForm, form.Named ∧
      ∃ env', form.declare? file env' = some e := by
  have all : (parts (Blocks.ofTokens (tokensOf source))).All Part.Named :=
    partsFrom_named (Blocks.ofTokens_all (Lexer.tokens_named _)) 0
  have start : ({ environment := env } : Reading).Named file := nofun
  have read : (Reading.ofParts file env (parts (Blocks.ofTokens (tokensOf source)))).Named file :=
    all.run (fun _ _ named h => h.step named) start
  exact fun e he => read e (List.mem_reverse.mp he)

end ConstLookup.Source
