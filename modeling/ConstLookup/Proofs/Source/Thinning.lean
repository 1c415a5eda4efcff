import ConstLookup.Proofs.Source.Branches
import ConstLookup.Proofs.Source.MacroNames

/-!
  Directives without effect. A directive that is neither a definition nor a branch ends no
  definition when its word is not written as `#undef`, or when what it names is no word, as every
  macro is named by one (`Directive.Idle`). Such directives can be left out of a source. Its blocks
  are made from its end, so leaving them out is followed through the blocks of the remaining tokens
  (`Blocks.ofTokens_thinned`), and then through the reading of these blocks (`readBlocks_thinned`).
-/

namespace ConstLookup.Source

open ConstLookup.Text ConstLookup.Source.Lexer

/-! ## Directives -/

/-- The directive ends no definition, where every macro is named by a word. -/
inductive Directive.Idle : Directive → Prop where
  | respelled {word : String} (h : word ≠ "#undef") (argument : Option String) :
      Idle (.call word argument)
  | unnamed {argument : String} (h : ¬ IsName (trim argument.toList)) :
      Idle (.call "#undef" (some argument))

theorem Directive.Idle.exists_call {d : Directive} (h : d.Idle) :
    ∃ word argument, d = .call word argument := by
  cases h with
  | respelled _ argument => exact ⟨_, argument, rfl⟩
  | unnamed => exact ⟨_, _, rfl⟩

/-- The first directives with some more among them that are idle, against the second ones. -/
inductive Directive.Thinned : List Directive → List Directive → Prop where
  | nil : Thinned [] []
  | keep {d : Directive} {ds ds' : List Directive} (named : d.Named) (rest : Thinned ds ds') :
      Thinned (d :: ds) (d :: ds')
  | drop {d : Directive} {ds ds' : List Directive} (idle : d.Idle) (rest : Thinned ds ds') :
      Thinned (d :: ds) ds'

/-! ## Blocks -/

namespace Blocks

/-- Blocks of directives that are thinned in every branch. -/
inductive Thinned : Blocks Token → Blocks Token → Prop where
  | done : Thinned done done
  | keep {t t' : Token} {d : Directive} {b b' : Blocks Token} (kind : t.kind = .directive d)
      (kind' : t'.kind = .directive d) (named : d.Named) (rest : Thinned b b') :
      Thinned (content t b) (content t' b')
  | drop {t : Token} {d : Directive} {b b' : Blocks Token} (kind : t.kind = .directive d)
      (idle : d.Idle) (rest : Thinned b b') : Thinned (content t b) b'
  | conditional {test : Test} {body body' otherwise otherwise' rest rest' : Blocks Token}
      (hb : Thinned body body') (ho : Thinned otherwise otherwise') (hr : Thinned rest rest') :
      Thinned (conditional test body otherwise rest) (conditional test body' otherwise' rest')

theorem Thinned.append {a a' b b' : Blocks Token} (h : Thinned a a') (h' : Thinned b b') :
    Thinned (a.append b) (a'.append b') := by
  induction h with
  | done => exact h'
  | keep kind kind' named _ ih => exact .keep kind kind' named ih
  | drop kind idle _ ih => exact .drop kind idle ih
  | conditional hb ho _ _ _ ih => exact .conditional hb ho ih

/-- All contents of the level are thinned. -/
structure Level.Thinned (l l' : Level) : Prop where
  branch : Blocks.Thinned l.branch l'.branch
  otherwise : Blocks.Thinned l.otherwise l'.otherwise
  later : Blocks.Thinned l.later l'.later

theorem Level.Thinned.all {l l' : Level} (h : l.Thinned l') : Blocks.Thinned l.all l'.all :=
  h.branch.append h.later

theorem Level.thinned_start : ({} : Level).Thinned {} := ⟨.done, .done, .done⟩

/-- The levels of the remaining tokens are thinned. -/
structure LevelsThinned (levels levels' : Level × List Level) : Prop where
  inner : levels.1.Thinned levels'.1
  outer : List.Forall₂ Level.Thinned levels.2 levels'.2

theorem levelsThinned_start : LevelsThinned ({}, []) ({}, []) := ⟨Level.thinned_start, .nil⟩

section Before

variable {levels levels' : Level × List Level}

theorem LevelsThinned.before (h : LevelsThinned levels levels') {t t' : Token} {d : Directive}
    (kind : t.kind = .directive d) (kind' : t'.kind = .directive d) (named : d.Named) :
    LevelsThinned (Blocks.before t levels) (Blocks.before t' levels') := by
  obtain ⟨inner, outer⟩ := levels
  obtain ⟨inner', outer'⟩ := levels'
  obtain ⟨hi, ho⟩ : inner.Thinned inner' ∧ List.Forall₂ Level.Thinned outer outer' :=
    ⟨h.inner, h.outer⟩
  have content : LevelsThinned ({ inner with branch := .content t inner.branch }, outer)
      ({ inner' with branch := .content t' inner'.branch }, outer') :=
    ⟨⟨.keep kind kind' named hi.branch, hi.otherwise, hi.later⟩, ho⟩
  rw [Blocks.before, Blocks.before, kind, kind']
  cases d with
  | endif => exact ⟨Level.thinned_start, .cons hi ho⟩
  | otherwise => exact ⟨⟨.done, hi.all, hi.all⟩, ho⟩
  | elseOpens test => exact ⟨⟨.done, .conditional hi.branch hi.otherwise .done, hi.all⟩, ho⟩
  | opens test =>
    cases ho with
    | nil => exact ⟨⟨.conditional hi.branch hi.otherwise .done, .done, .done⟩, .nil⟩
    | cons first ho =>
      exact ⟨⟨.conditional hi.branch hi.otherwise first.branch, first.otherwise, first.later⟩, ho⟩
  | define | defineFunction | call | inert => exact content

theorem LevelsThinned.drop (h : LevelsThinned levels levels') {t : Token} {d : Directive}
    (kind : t.kind = .directive d) (idle : d.Idle) :
    LevelsThinned (Blocks.before t levels) levels' := by
  obtain ⟨hi, ho⟩ := h
  obtain ⟨word, argument, rfl⟩ := idle.exists_call
  rw [Blocks.before, kind]
  exact ⟨⟨.drop kind idle hi.branch, hi.otherwise, hi.later⟩, ho⟩

end Before

/-- Directives that are thinned make up blocks that are. -/
theorem ofTokens_thinned {ds ds' : List Directive} (h : Directive.Thinned ds ds')
    {ts ts' : List Token} (kinds : ts.map (·.kind) = ds.map .directive)
    (kinds' : ts'.map (·.kind) = ds'.map .directive) :
    Thinned (ofTokens ts) (ofTokens ts') := by
  have levels : LevelsThinned (ts.foldr before ({}, [])) (ts'.foldr before ({}, [])) := by
    induction h generalizing ts ts' with
    | nil =>
      rw [List.map_eq_nil_iff.mp kinds, List.map_eq_nil_iff.mp kinds']
      exact levelsThinned_start
    | keep named _ ih =>
      obtain ⟨t, ts, rfl, kind, kinds⟩ := List.map_eq_cons_iff.mp kinds
      obtain ⟨t', ts', rfl, kind', kinds'⟩ := List.map_eq_cons_iff.mp kinds'
      exact (ih kinds kinds').before kind kind' named
    | drop idle _ ih =>
      obtain ⟨t, ts, rfl, kind, kinds⟩ := List.map_eq_cons_iff.mp kinds
      exact (ih kinds kinds').drop kind idle
  have joined {outer outer' : List Level} (all : List.Forall₂ Level.Thinned outer outer')
      {b b' : Blocks Token} (h : Thinned b b') :
      Thinned (outer.foldl (fun blocks level => blocks.append level.all) b)
        (outer'.foldl (fun blocks level => blocks.append level.all) b') := by
    induction all generalizing b b' with
    | nil => exact h
    | cons first _ ih => exact ih (h.append first.all)
  exact joined levels.outer levels.inner.all

end Blocks

/-! ## Reading -/

/-- Readings that found the same macros, at whatever places, all named by words. -/
structure Reading.Alike (r r' : Reading) : Prop where
  environment : r.environment = r'.environment
  macros : r.macros.map (fun m => (m.name, m.body)) = r'.macros.map fun m => (m.name, m.body)
  named : r.environment.Named

section Reading

variable {file : String} {r r' : Reading}

theorem Part.ofDirective?_call (p : Position) (word : String) (argument : Option String) :
    Part.ofDirective? p (.call word argument) =
      if word = "#undef" then
        argument.map fun name => .removal (String.ofList (trim name.toList))
      else none := by
  by_cases undef : word = "#undef"
  · subst undef
    cases argument <;> rfl
  · simp [Part.ofDirective?, undef]

theorem Reading.Alike.directive (h : r.Alike r') (p p' : Position) {d : Directive} (named : d.Named) :
    (r.directive file p d).Alike (r'.directive file p' d) := by
  obtain ⟨env, macros, enums⟩ := r
  obtain ⟨env', macros', enums'⟩ := r'
  obtain ⟨same, found, names⟩ := h
  obtain rfl : env = env' := same
  cases d with
  | define name body =>
    refine ⟨rfl, ?_, names.insert named _⟩
    exact congrArg (List.cons _) found
  | defineFunction name => exact ⟨rfl, found, names.insert named _⟩
  | call word argument =>
    rw [Reading.directive, Reading.directive, Part.ofDirective?_call, Part.ofDirective?_call]
    by_cases undef : word = "#undef"
    · rw [if_pos undef]
      cases argument with
      | none => exact ⟨rfl, found, names⟩
      | some name => exact ⟨rfl, found, names.erase _⟩
    · rw [if_neg undef]
      exact ⟨rfl, found, names⟩
  | opens | elseOpens | otherwise | endif | inert => exact ⟨rfl, found, names⟩

theorem Reading.Alike.idle (h : r.Alike r') (p : Position) {d : Directive} (idle : d.Idle) :
    (r.directive file p d).Alike r' := by
  cases idle with
  | respelled other argument =>
    rw [Reading.directive, Part.ofDirective?_call, if_neg other]
    exact h
  | @unnamed argument noWord =>
    rw [← String.toList_ofList (l := trim argument.toList)] at noWord
    exact ⟨(h.named.erase_eq_self noWord).trans h.environment, h.macros, h.named.erase _⟩

/-- What is read does not depend on idle directives, nor on the places of the others. -/
theorem readBlocks_thinned {b b' : Blocks Token} (h : Blocks.Thinned b b') (alike : r.Alike r') :
    (readBlocks file r b).Alike (readBlocks file r' b') := by
  induction h generalizing r r' with
  | done => exact alike
  | keep kind kind' named _ ih =>
    rw [readBlocks_directive kind, readBlocks_directive kind']
    exact ih (alike.directive _ _ named)
  | drop kind idle _ ih =>
    rw [readBlocks_directive kind]
    exact ih (alike.idle _ idle)
  | @conditional test _ _ _ _ _ _ _ _ _ ihb iho ih =>
    rw [readBlocks_conditional, readBlocks_conditional, alike.environment]
    refine ih ?_
    split
    · exact ihb alike
    · exact iho alike

end Reading

end ConstLookup.Source
