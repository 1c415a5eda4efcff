import ConstLookup.Headers
import Mathlib.Data.List.Induction

/-!
  What is read of headers, in turn (`HeaderText.partsRead`): the parts of the branches that are
  taken. A macro is recorded where its definition is read, and stays recorded; the environment is
  what the definitions and removals that are read make of it one after another
  (`HeaderText.environment_eq_foldl`). So a name is defined in the end if no removal of it was
  read after its last definition, and it was defined at all (`isDefined_foldl_change`).
-/

namespace ConstLookup

namespace Source

/-! ## Contents that are read -/

namespace Blocks

variable {α σ : Type} (holds : σ → Test → Bool) (step : σ → α → σ)

/-- The contents that are read, in turn. -/
def read : σ → Blocks α → List α
  | _, done => []
  | s, content a rest => a :: read (step s a) rest
  | s, conditional test body otherwise rest =>
    let branch := if holds s test then read s body else read s otherwise
    branch ++ read (branch.foldl step s) rest

theorem run_eq_foldl_read (s : σ) (b : Blocks α) :
    b.run holds step s = (b.read holds step s).foldl step s := by
  induction b generalizing s with
  | done => rfl
  | content a rest ih => exact ih (step s a)
  | conditional test body otherwise rest ihb iho ih =>
    rw [run, read, List.foldl_append]
    split
    · rw [ihb, ih]
    · rw [iho, ih]

end Blocks

/-! ## Parts and the environment -/

/-- What a part makes of the environment. -/
def Part.change (env : Environment) : Part → Environment
  | .definition name body _ => env.insert name (Body.clean (body.getD ""))
  | .functionDefinition name => env.insert name ""
  | .removal name => env.erase name
  | .enumeration _ => env

/-- The part defines the name as a macro, with or without parameters. -/
def Part.Defines (name : String) : Part → Prop
  | .definition other _ _ => other = name
  | .functionDefinition other => other = name
  | .removal _ => False
  | .enumeration _ => False

/-- The definition of the name was removed, and the name was not defined again. -/
def Removed (name : String) (ps : List Part) : Prop :=
  ∃ earlier later, ps = earlier ++ .removal name :: later ∧ ∀ p ∈ later, ¬ p.Defines name

section Change

variable {name : String} {env : Environment} {p : Part} {ps : List Part}

theorem isDefined_change :
    (p.change env).isDefined name = true ↔
      p.Defines name ∨ (p ≠ .removal name ∧ env.isDefined name = true) := by
  unfold Environment.isDefined
  cases p with
  | definition other body position =>
    rw [Part.change, Environment.get?_insert]
    by_cases same : other = name <;> simp [Part.Defines, same]
  | functionDefinition other =>
    rw [Part.change, Environment.get?_insert]
    by_cases same : other = name <;> simp [Part.Defines, same]
  | removal other =>
    rw [Part.change, Environment.get?_erase]
    by_cases same : other = name <;> simp [Part.Defines, same]
  | enumeration form => simp [Part.change, Part.Defines]

theorem not_removed_nil : ¬ Removed name [] := by
  rintro ⟨earlier, later, split, -⟩
  exact absurd split.symm (List.append_ne_nil_of_right_ne_nil _ (List.cons_ne_nil _ _))

/-- The last part decides, unless it has nothing to do with the name. -/
theorem removed_append_singleton :
    Removed name (ps ++ [p]) ↔ p = .removal name ∨ (Removed name ps ∧ ¬ p.Defines name) := by
  constructor
  · rintro ⟨earlier, later, split, quiet⟩
    rcases later.eq_nil_or_concat with rfl | ⟨later, q, rfl⟩
    · obtain ⟨-, last⟩ := List.append_inj' split rfl
      exact .inl (List.singleton_inj.mp last)
    · rw [List.concat_eq_append] at split quiet
      rw [← List.cons_append, ← List.append_assoc] at split
      obtain ⟨before, last⟩ := List.append_inj' split rfl
      cases List.singleton_inj.mp last
      obtain ⟨quiet, own⟩ := List.forall_mem_append.mp quiet
      exact .inr ⟨⟨earlier, later, before, quiet⟩, own p List.mem_cons_self⟩
  · rintro (rfl | ⟨⟨earlier, later, rfl, quiet⟩, own⟩)
    · exact ⟨ps, [], rfl, List.forall_mem_nil _⟩
    · refine ⟨earlier, later ++ [p], by rw [List.append_assoc, List.cons_append], ?_⟩
      exact List.forall_mem_append.mpr ⟨quiet, by simpa using own⟩

/-- After parts are read a name is defined exactly if it was defined, there or before, and no
removal stands after its last definition. -/
theorem isDefined_foldl_change :
    (ps.foldl Part.change env).isDefined name = true ↔
      (env.isDefined name = true ∨ ∃ p ∈ ps, p.Defines name) ∧ ¬ Removed name ps := by
  induction ps using List.reverseRecOn with
  | nil => simp [not_removed_nil]
  | append_singleton ps p ih =>
    rw [List.foldl_append, List.foldl_cons, List.foldl_nil, isDefined_change, ih,
      removed_append_singleton]
    by_cases own : p.Defines name
    · have kept : p ≠ .removal name := by
        rintro rfl
        exact own
      simp [own, kept]
    · simp only [own, List.mem_append, List.mem_singleton]
      grind

end Change

/-! ## Reading sources -/

section Reading

variable {file : String}

theorem Reading.environment_step (r : Reading) (p : Part) :
    (r.step file p).environment = p.change r.environment := by
  cases p with
  | enumeration form =>
    rw [Reading.step]
    split <;> rfl
  | _ => rfl

theorem Reading.environment_foldl (r : Reading) (ps : List Part) :
    (ps.foldl (Reading.step file) r).environment = ps.foldl Part.change r.environment := by
  induction ps generalizing r with
  | nil => rfl
  | cons p ps ih => rw [List.foldl_cons, ih, environment_step, List.foldl_cons]

theorem Reading.mem_macros_step {r : Reading} {p : Part} {m : MacroDecl}
    (h : m ∈ (r.step file p).macros) :
    m ∈ r.macros ∨ ∃ body position, p = .definition m.name body position := by
  cases p with
  | definition name body position =>
    rcases List.mem_cons.mp h with rfl | h
    · exact .inr ⟨body, position, rfl⟩
    · exact .inl h
  | functionDefinition name => exact .inl h
  | removal name => exact .inl h
  | enumeration form =>
    rw [Reading.step] at h
    split at h <;> exact .inl h

/-- A macro is recorded only where a definition of its name is read. -/
theorem Reading.mem_macros_foldl {r : Reading} {ps : List Part} {m : MacroDecl}
    (h : m ∈ (ps.foldl (Reading.step file) r).macros) :
    m ∈ r.macros ∨ ∃ body position, .definition m.name body position ∈ ps := by
  induction ps generalizing r with
  | nil => exact .inl h
  | cons p ps ih =>
    rcases ih h with h | ⟨body, position, mem⟩
    · rcases mem_macros_step h with h | ⟨body, position, rfl⟩
      · exact .inl h
      · exact .inr ⟨body, position, List.mem_cons_self⟩
    · exact .inr ⟨body, position, List.mem_cons_of_mem p mem⟩

end Reading

/-- The parts of a source that are read under an environment. -/
def partsRead (env : Environment) (file source : String) : List Part :=
  (parts (Blocks.ofTokens (tokensOf source))).read (fun r test => test.holds r.environment)
    (Reading.step file) { environment := env }

section Declarations

variable {env : Environment} {file source : String}

theorem environment_eq_foldl :
    (declarations env file source).2 = (partsRead env file source).foldl Part.change env := by
  show (Reading.ofParts file env _).environment = _
  rw [Reading.ofParts, Blocks.run_eq_foldl_read, Reading.environment_foldl, partsRead]

theorem definition_mem_partsRead {m : MacroDecl}
    (h : m ∈ (declarations env file source).1.macros) :
    ∃ body position, .definition m.name body position ∈ partsRead env file source := by
  have h : m ∈ (Reading.ofParts file env (parts (Blocks.ofTokens (tokensOf source)))).macros :=
    List.mem_reverse.mp h
  rw [Reading.ofParts, Blocks.run_eq_foldl_read] at h
  exact (Reading.mem_macros_foldl h).resolve_left List.not_mem_nil

end Declarations

end Source

/-! ## Reading headers in turn -/

namespace HeaderText

open Source

/-- The parts of headers that are read in turn, each header under the environment that the
headers before it leave. -/
def partsRead (env : Environment) : List HeaderText → List Part
  | [] => []
  | h :: hs =>
    Source.partsRead env h.path h.text ++ partsRead (Source.declarations env h.path h.text).2 hs

theorem environment_eq_foldl (env : Environment) (hs : List HeaderText) :
    (declarations env hs).2 = (partsRead env hs).foldl Part.change env := by
  induction hs generalizing env with
  | nil => rfl
  | cons h hs ih =>
    rw [partsRead, List.foldl_append, ← Source.environment_eq_foldl]
    exact ih _

/-- Every macro that headers declare has a definition that is read. -/
theorem definition_mem_partsRead {env : Environment} {hs : List HeaderText} {s : HeaderSource}
    (hsource : s ∈ (declarations env hs).1) {m : MacroDecl} (hm : m ∈ s.declarations.macros) :
    ∃ body position, .definition m.name body position ∈ partsRead env hs := by
  induction hs generalizing env with
  | nil => cases hsource
  | cons h hs ih =>
    rcases List.mem_cons.mp hsource with rfl | later
    · obtain ⟨body, position, mem⟩ := Source.definition_mem_partsRead hm
      exact ⟨body, position, List.mem_append_left _ mem⟩
    · obtain ⟨body, position, mem⟩ := ih later
      exact ⟨body, position, List.mem_append_right _ mem⟩

/-- A declared macro is defined in the end exactly if it was not removed for good. -/
theorem isDefined_iff_not_removed {env : Environment} {hs : List HeaderText} {s : HeaderSource}
    (hsource : s ∈ (declarations env hs).1) {m : MacroDecl} (hm : m ∈ s.declarations.macros) :
    (declarations env hs).2.isDefined m.name = true ↔ ¬ Removed m.name (partsRead env hs) := by
  obtain ⟨body, position, mem⟩ := definition_mem_partsRead hsource hm
  rw [environment_eq_foldl, isDefined_foldl_change]
  exact and_iff_right (.inr ⟨_, mem, rfl⟩)

end HeaderText

end ConstLookup
