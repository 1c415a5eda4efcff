import ConstLookup.Headers
import ConstLookup.Proofs.Expr.Literal
import ConstLookup.Proofs.Expr.Successor
import ConstLookup.Proofs.Source.Words
import ConstLookup.Proofs.Symbol.FixedPoint

/-!
  The numbers of enum members without value. The first member of an enum is zero. A later one is
  given the text `(previous) + 1`, so it counts up from the member before it exactly if the name
  of that member means itself between parentheses (`implicit_member_iff`): after a member that is
  named like a type the text is a cast, and the next member is one, whatever the value before it
  (`implicit_member_cast`).
-/

namespace ConstLookup.Source

open ConstLookup.Text

/-! ## Members of the branches taken -/

namespace Blocks

variable {α σ : Type} {holds : Test → Bool}

/-- The contents of the branches taken, when the contents do not matter to the tests. -/
def taken (holds : Test → Bool) : Blocks α → List α
  | done => []
  | content a rest => a :: rest.taken holds
  | conditional test body otherwise rest =>
    (if holds test then body.taken holds else otherwise.taken holds) ++ rest.taken holds

theorem run_eq_foldl (step : σ → α → σ) (s : σ) (b : Blocks α) :
    b.run (fun _ => holds) step s = (b.taken holds).foldl step s := by
  induction b generalizing s with
  | done => rfl
  | content a rest ih => exact ih (step s a)
  | conditional test body otherwise rest ihb iho ih =>
    rw [Blocks.run, taken, List.foldl_append, ih]
    split
    · rw [ihb]
    · rw [iho]

theorem All.taken {P : α → Prop} {b : Blocks α} (h : b.All P) : ∀ a ∈ b.taken holds, P a := by
  induction b with
  | done => nofun
  | content a rest ih => exact List.forall_mem_cons.mpr ⟨h.1, ih h.2⟩
  | conditional test body otherwise rest ihb iho ih =>
    refine List.forall_mem_append.mpr ⟨?_, ih h.2.2⟩
    split
    · exact ihb h.1
    · exact iho h.2.1

end Blocks

/-- The members of an enum in the branches taken, as written. -/
def EnumForm.takenMembers (form : EnumForm) (env : Environment) : List MemberForm :=
  form.members.taken fun test => test.holds env

section Members

variable {file : String} {env : Environment} {form : EnumForm} {e : EnumDecl}

theorem members_eq (h : form.declare? file env = some e) :
    e.members = ((form.takenMembers env).foldl (addMember file) []).reverse := by
  obtain ⟨name, -, rfl⟩ := Option.map_eq_some_iff.mp h
  exact congrArg List.reverse (Blocks.run_eq_foldl (addMember file) [] form.members)

theorem foldl_addMember_names (ms : List MemberForm) (found : List MemberDecl) :
    (ms.foldl (addMember file) found).map (·.name) =
      (ms.map (·.name)).reverse ++ found.map (·.name) := by
  induction ms generalizing found with
  | nil => rfl
  | cons m ms ih =>
    rw [List.foldl_cons, ih, List.map_cons, List.reverse_cons, List.append_assoc]
    rfl

theorem members_names (h : form.declare? file env = some e) :
    e.members.map (·.name) = (form.takenMembers env).map (·.name) := by
  rw [members_eq h, List.map_reverse, foldl_addMember_names, List.map_nil, List.append_nil,
    List.reverse_reverse]

theorem mem_foldl_addMember {found : List MemberDecl} {d : MemberDecl} (h : d ∈ found)
    (ms : List MemberForm) : d ∈ ms.foldl (addMember file) found := by
  induction ms generalizing found with
  | nil => exact h
  | cons m ms ih => exact ih (List.mem_cons_of_mem _ h)

/-- A first member without value is declared as zero. -/
theorem first_declared (h : form.declare? file env = some e) {m : MemberForm}
    {after : List MemberForm} (members : form.takenMembers env = m :: after)
    (implicit : m.value = none) :
    ⟨m.name, "0", locationIn file m.position⟩ ∈ e.members := by
  rw [members_eq h, members, List.mem_reverse, List.foldl_cons]
  refine mem_foldl_addMember ?_ after
  simp only [addMember, implicit]
  exact List.mem_cons_self

/-- A later member without value is declared as one more than the member before it. -/
theorem next_declared (h : form.declare? file env = some e) {m previous : MemberForm}
    {before after : List MemberForm}
    (members : form.takenMembers env = before ++ previous :: m :: after)
    (implicit : m.value = none) :
    ⟨m.name, s!"({previous.name}) + 1", locationIn file m.position⟩ ∈ e.members := by
  rw [members_eq h, members, List.mem_reverse, List.foldl_append, List.foldl_cons, List.foldl_cons]
  refine mem_foldl_addMember ?_ after
  simp only [addMember, implicit]
  exact List.mem_cons_self

end Members

/-! ## Names -/

theorem isIdentStart_of_startsWord {c : Char} (start : Lexer.startsWord c = true)
    (part : isIdentPart c = true) : isIdentStart c = true := by
  have noDollar : c ≠ '$' := by rintro rfl; cases part
  simp only [Lexer.startsWord, noDollar, decide_false, Bool.or_false, Bool.and_eq_true,
    Bool.not_eq_true'] at start
  simpa [isIdentPart, isIdentStart, start.2] using part

/-- A word that is no identifier has a character that no expression has. -/
theorem IsName.exists_foreign {w : List Char} (h : IsName w) (other : isIdentifier w = false) :
    ∃ front c cs, w = front ++ c :: cs ∧ (front = [] ∨ isIdentifier front = true) ∧
      ConstLookup.Lexer.Foreign c := by
  have identifier {a : Char} {as : List Char} (more : List Char) (text : w = a :: (as ++ more))
      (part : ∀ d ∈ a :: as, isIdentPart d = true) : isIdentifier (a :: as) = true := by
    rw [text] at h
    obtain ⟨first, rest⟩ := List.forall_mem_cons.mp part
    exact Bool.and_eq_true_iff.mpr
      ⟨isIdentStart_of_startsWord h.1 first, List.all_eq_true.mpr rest⟩
  have split : w.takeWhile isIdentPart ++ w.dropWhile isIdentPart = w :=
    List.takeWhile_append_dropWhile
  have part : ∀ d ∈ w.takeWhile isIdentPart, isIdentPart d = true :=
    List.all_eq_true.mp List.all_takeWhile
  have stops := head_dropWhile isIdentPart w
  generalize w.takeWhile isIdentPart = front at split part
  generalize w.dropWhile isIdentPart = rest at split stops
  obtain ⟨a, as, text⟩ := h.exists_cons
  cases rest with
  | nil =>
    rw [List.append_nil] at split
    subst split
    subst text
    rw [identifier [] (by rw [List.append_nil]) part] at other
    cases other
  | cons c cs =>
    have word : c ∈ w := split ▸ List.mem_append_right _ List.mem_cons_self
    refine ⟨front, c, cs, split.symm, ?_, stops c rfl, ?_⟩
    · cases front with
      | nil => exact .inl rfl
      | cons b bs => exact .inr (identifier _ split.symm part)
    · simpa [Lexer.continuesWord] using h.continuesWord c word

/-- The name of a member means the member between parentheses, or the value says so anyway. -/
theorem evaluate_successor_iff {known : Resolver} {name : String} (word : IsName name.toList)
    {v : Int} (value : known name = some (.int v)) (fits : InWord (v + 1)) :
    evaluate known (s!"({name}) + 1") = .ok (some (.int (v + 1))) ↔
      (∃ n : ConstantName, n.text = name) ∨
        (isIdentifier name.toList = true ∧ Eval.isTypeWord name = true ∧ v = 0) := by
  have next : (checkedInt (v + 1)).map some = .ok (some (.int (v + 1))) := by
    rw [checkedInt, if_pos fits]
    rfl
  cases identifier : isIdentifier name.toList with
  | false =>
    obtain ⟨front, c, cs, text, hf, hc⟩ := word.exists_foreign identifier
    rw [evaluate_successor_foreign text hf hc]
    refine iff_of_false nofun ?_
    rintro (⟨n, rfl⟩ | ⟨⟨⟩, -⟩)
    rw [n.identifier] at identifier
    cases identifier
  | true =>
    cases type : Eval.isTypeWord name with
    | true =>
      rw [evaluate_successor_type identifier type]
      constructor
      · intro one
        have same : 1 = v + 1 := Number.int.inj (Option.some.inj (Except.ok.inj one))
        exact .inr ⟨rfl, rfl, by omega⟩
      · rintro (⟨n, rfl⟩ | ⟨-, -, rfl⟩)
        · rw [n.type] at type
          cases type
        · rfl
    | false =>
      by_cases reserved :
          Eval.annotations.contains name = true ∨ name = "sizeof" ∨ name = "_Alignof"
      · obtain ⟨e, failed⟩ : ∃ e, evaluate known (s!"({name}) + 1") = .error e :=
          evaluate_successor_reserved identifier type reserved
        rw [failed]
        refine iff_of_false nofun ?_
        rintro (⟨n, rfl⟩ | ⟨-, ⟨⟩, -⟩)
        rcases reserved with annotation | size
        · rw [n.annotation] at annotation
          cases annotation
        · exact size.elim n.size.1 n.size.2
      · simp only [not_or, Bool.not_eq_true] at reserved
        let n : ConstantName := ⟨name, identifier, reserved.1, type, reserved.2⟩
        exact iff_of_true ((evaluate_successor_name n value).trans next) (.inl ⟨n, rfl⟩)

/-! ## Members after folding -/

/-- All symbols that are declared, in order. -/
def declaredSymbols (defines : List Define) (sources : List HeaderSource) : List Symbol :=
  defines.map Assemble.defineSymbol ++
    sources.flatMap fun s => Assemble.symbolsOf s.declarations

/-- Every enum of a header is declared by a form whose members are named by words. -/
theorem headers_named (env : Environment) (headers : List HeaderText) :
    ∀ source ∈ (HeaderText.declarations env headers).1, ∀ e ∈ source.declarations.enums,
      ∃ form : EnumForm, form.Named ∧ ∃ env', form.declare? source.path env' = some e := by
  induction headers generalizing env with
  | nil => nofun
  | cons h hs ih =>
    exact List.forall_mem_cons.mpr ⟨declarations_named env h.path h.text, ih _⟩

section Folded

variable {defines : List Define} {sources : List HeaderSource} {source : HeaderSource}
  {e : EnumDecl} {m : MemberDecl} {maxPasses : Nat}

theorem memberSymbol_declared (hs : source ∈ sources) (he : e ∈ source.declarations.enums)
    (hm : m ∈ e.members) : Assemble.memberSymbol m ∈ declaredSymbols defines sources := by
  refine List.mem_append_right _ (List.mem_flatMap.mpr ⟨source, hs, List.mem_append_right _ ?_⟩)
  exact List.mem_flatMap.mpr ⟨e, he, List.mem_map_of_mem hm⟩

/-- A member that is declared once has the number of its text. -/
theorem folded_member_iff (once : ((declaredSymbols defines sources).map Symbol.name).Nodup)
    (size : (Assemble.symbolTable defines sources).size < maxPasses) (hs : source ∈ sources)
    (he : e ∈ source.declarations.enums) (hm : m ∈ e.members) (v : Number) :
    let folded := (Fold.fold maxPasses (Assemble.symbolTable defines sources)).1
    folded.value? m.name = some (.number v) ↔ evaluate folded.number? m.value = .ok (some v) := by
  intro folded
  have value : (Assemble.symbolTable defines sources).value? m.name = some (.expr m.value) :=
    SymbolTable.value?_foldl_insert_of_nodup once (memberSymbol_declared hs he hm) _
  rw [← SymbolTable.number?_eq_some_iff]
  exact (Fold.fold_reached size).number?_iff_evaluate value v

end Folded

/-- The numbers of members without value, when every name is declared once and there are more
passes than symbols. The first member of an enum in the branches taken is zero. A later one is one
more than the member before it exactly if the name of that member, between parentheses, is read
as a name for a constant; or if it is read as a cast and the member before it is zero. -/
theorem implicit_member_iff {defines : List Define} {headers : List HeaderText} {maxPasses : Nat}
    (once : ((declaredSymbols defines
      (HeaderText.declarations (.ofDefines defines) headers).1).map Symbol.name).Nodup)
    (size : (Assemble.symbolTable defines
      (HeaderText.declarations (.ofDefines defines) headers).1).size < maxPasses) :
    let sources := (HeaderText.declarations (.ofDefines defines) headers).1
    let folded := (Fold.fold maxPasses (Assemble.symbolTable defines sources)).1
    ∀ source ∈ sources, ∀ e ∈ source.declarations.enums,
      (∃ (form : EnumForm) (env : Environment), form.declare? source.path env = some e) ∧
      ∀ (form : EnumForm) (env : Environment), form.declare? source.path env = some e →
        (∀ m after, form.takenMembers env = m :: after → m.value = none →
          folded.value? m.name = some (.number (.int 0))) ∧
        (∀ before previous m after v,
          form.takenMembers env = before ++ previous :: m :: after → m.value = none →
          folded.value? previous.name = some (.number (.int v)) → InWord (v + 1) →
          (folded.value? m.name = some (.number (.int (v + 1))) ↔
            (∃ n : ConstantName, n.text = previous.name) ∨
              (isIdentifier previous.name.toList = true ∧
                Eval.isTypeWord previous.name = true ∧ v = 0))) ∧
        (∀ before previous m after,
          form.takenMembers env = before ++ previous :: m :: after → m.value = none →
          isIdentifier previous.name.toList = true → Eval.isTypeWord previous.name = true →
          folded.value? m.name = some (.number (.int 1))) := by
  intro sources folded source hs e he
  obtain ⟨form, named, env, declared⟩ := headers_named _ headers source hs e he
  have words : ∀ name ∈ e.members.map (·.name), IsName name.toList := by
    rw [members_names declared]
    intro name mem
    obtain ⟨m, hm, rfl⟩ := List.mem_map.mp mem
    exact named.taken m hm
  refine ⟨⟨form, env, declared⟩, fun form env declared => ⟨?_, ?_, ?_⟩⟩
  · intro m after members implicit
    have member := first_declared declared members implicit
    exact (folded_member_iff once size hs he member _).mpr (evaluate_decimal _ 0 (by decide))
  · intro before previous m after v members implicit value fits
    have member := next_declared declared members implicit
    have word : IsName previous.name.toList := words _ (by
      rw [members_names declared, members]
      simp)
    rw [← SymbolTable.number?_eq_some_iff] at value
    exact (folded_member_iff once size hs he member _).trans
      (evaluate_successor_iff word value fits)
  · intro before previous m after members implicit identifier type
    have member := next_declared declared members implicit
    exact (folded_member_iff once size hs he member _).mpr
      (evaluate_successor_type identifier type)

/-! ## A member that is named like a type -/

/-- A header with an enum whose second member is named like a type. -/
def typeNamed : HeaderText := ⟨"test.h", "enum E { A, foo_t, B };\n"⟩

/-- The enum as written. -/
def typeNamedForm : EnumForm where
  tag := some "E"
  typedefName := none
  members := .content ⟨"A", none, ⟨1, 9⟩⟩
    (.content ⟨"foo_t", none, ⟨1, 12⟩⟩ (.content ⟨"B", none, ⟨1, 19⟩⟩ .done))
  position := ⟨1, 0⟩

/-- The enum as declared. -/
def typeNamedEnum : EnumDecl where
  name := "E"
  members := [⟨"A", "0", ⟨"test.h", 1, 9⟩⟩, ⟨"foo_t", "(A) + 1", ⟨"test.h", 1, 12⟩⟩,
    ⟨"B", "(foo_t) + 1", ⟨"test.h", 1, 19⟩⟩]
  location := ⟨"test.h", 1, 0⟩

theorem declarations_typeNamed :
    (HeaderText.declarations [] [typeNamed]).1 =
      [⟨"test.h", { enums := [typeNamedEnum] }⟩] := by
  have whole : Source.declarations [] "test.h" "enum E { A, foo_t, B };\n" =
      ({ enums := [typeNamedEnum] }, []) := by
    decide +kernel
  rw [HeaderText.declarations, typeNamed, whole]
  rfl

theorem once_typeNamed :
    ((declaredSymbols [] (HeaderText.declarations [] [typeNamed]).1).map Symbol.name).Nodup := by
  rw [declarations_typeNamed]
  decide

theorem size_typeNamed :
    (Assemble.symbolTable [] (HeaderText.declarations [] [typeNamed]).1).size < 1024 := by
  rw [declarations_typeNamed]
  exact Nat.lt_of_le_of_lt (SymbolTable.size_foldl_insert_le _ _) (by decide)

/-- The member after one that is named like a type does not count up from it. -/
theorem implicit_member_cast :
    let sources := (HeaderText.declarations [] [typeNamed]).1
    let symbols := Assemble.symbolTable [] sources
    let folded := (Fold.fold 1024 symbols).1
    ((declaredSymbols [] sources).map Symbol.name).Nodup ∧ symbols.size < 1024 ∧
      sources = [⟨"test.h", { enums := [typeNamedEnum] }⟩] ∧
      typeNamedForm.declare? "test.h" [] = some typeNamedEnum ∧
      typeNamedForm.takenMembers [] = [⟨"A", none, ⟨1, 9⟩⟩, ⟨"foo_t", none, ⟨1, 12⟩⟩,
        ⟨"B", none, ⟨1, 19⟩⟩] ∧
      folded.value? "foo_t" = some (.number (.int 1)) ∧
      ¬ folded.value? "B" = some (.number (.int (1 + 1))) := by
  intro sources symbols folded
  have member {m : MemberDecl} (hm : m ∈ typeNamedEnum.members) (v : Number) :
      folded.value? m.name = some (.number v) ↔
        evaluate folded.number? m.value = .ok (some v) := by
    have declared : ⟨"test.h", { enums := [typeNamedEnum] }⟩ ∈ sources := by
      rw [show sources = _ from declarations_typeNamed]
      exact List.mem_cons_self
    exact folded_member_iff once_typeNamed size_typeNamed declared List.mem_cons_self hm v
  have a : folded.value? "A" = some (.number (.int 0)) :=
    (member (m := ⟨"A", "0", ⟨"test.h", 1, 9⟩⟩) (by decide) _).mpr
      (evaluate_decimal _ 0 (by decide))
  have foo : folded.value? "foo_t" = some (.number (.int 1)) := by
    refine (member (m := ⟨"foo_t", "(A) + 1", ⟨"test.h", 1, 12⟩⟩) (by decide) _).mpr ?_
    exact evaluate_successor_name ⟨"A", by decide, by decide, by decide, by decide⟩
      (SymbolTable.number?_eq_some_iff.mpr a)
  refine ⟨once_typeNamed, size_typeNamed, declarations_typeNamed, rfl, rfl, foo, fun b => ?_⟩
  have two := (member (m := ⟨"B", "(foo_t) + 1", ⟨"test.h", 1, 19⟩⟩) (by decide) _).mp b
  have one : evaluate folded.number? "(foo_t) + 1" = .ok (some (.int 1)) :=
    @evaluate_successor_type folded.number? "foo_t" (by decide) (by decide)
  rw [one] at two
  cases two

/-- What the members of this enum are worth. -/
theorem implicit_member_iff_typeNamed :
    let sources := (HeaderText.declarations (.ofDefines []) [typeNamed]).1
    let symbols := Assemble.symbolTable [] sources
    let folded := (Fold.fold 1024 symbols).1
    ((declaredSymbols [] sources).map Symbol.name).Nodup ∧ symbols.size < 1024 ∧
      folded.value? "A" = some (.number (.int 0)) ∧
      folded.value? "foo_t" = some (.number (.int 1)) ∧
      folded.value? "B" = some (.number (.int 1)) := by
  intro sources symbols folded
  obtain ⟨-, members⟩ := implicit_member_iff once_typeNamed size_typeNamed
    ⟨"test.h", { enums := [typeNamedEnum] }⟩
    (declarations_typeNamed ▸ List.mem_cons_self) typeNamedEnum List.mem_cons_self
  obtain ⟨first, next, cast⟩ := members typeNamedForm [] rfl
  have a := first _ _ rfl rfl
  have foo := (next [] _ ⟨"foo_t", none, ⟨1, 12⟩⟩ _ 0 rfl rfl a (by decide)).mpr
    (.inl ⟨⟨"A", by decide, by decide, by decide, by decide⟩, rfl⟩)
  have b := cast [⟨"A", none, ⟨1, 9⟩⟩] _ ⟨"B", none, ⟨1, 19⟩⟩ [] rfl rfl (by decide) (by decide)
  exact ⟨once_typeNamed, size_typeNamed, a, foo, b⟩

end ConstLookup.Source
