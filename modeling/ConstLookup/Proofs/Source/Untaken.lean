import ConstLookup.Proofs.Source.Branches
import ConstLookup.Proofs.Source.Condition

/-!
  The declarations of a source of properly nested commands. They are those that a stack of chains
  makes of its lines (`declarations_eq_run`), whatever stands in branches that are not taken. The
  text of a line has to end the line for the lexer as well: where the last slash of a body takes
  the line end along, where a blank stands for a body, where a literal holds the start of a
  comment, or where a condition uses an operator that conditions do not have, the source is read
  otherwise (`declarations_ne_run`).
-/

namespace ConstLookup.Source

open ConstLookup.Text ConstLookup.Source.Lexer

/-! ## Branches that are not taken -/

/-- Commands that a machine reads from the given line on, and others that differ from them only
inside branches that are not taken: there the macros may change otherwise, and chains that start
there may ask for other tests. -/
inductive AgreeWhereLive (file : String) : Machine → Nat → List Command → List Command → Prop where
  | nil {m : Machine} {line : Nat} : AgreeWhereLive file m line [] []
  | same {m : Machine} {line : Nat} {cs cs' : List Command} (c : Command)
      (rest : AgreeWhereLive file (m.step file line c) (line + 1) cs cs') :
      AgreeWhereLive file m line (c :: cs) (c :: cs')
  | content {m : Machine} {line : Nat} {c c' : Command} {cs cs' : List Command}
      (dead : m.isLive = false) (h : c.isContent = true) (h' : c'.isContent = true)
      (rest : AgreeWhereLive file m (line + 1) cs cs') :
      AgreeWhereLive file m line (c :: cs) (c' :: cs')
  | opens {m : Machine} {line : Nat} {cs cs' : List Command} (dead : m.isLive = false)
      (test test' : Test)
      (rest : AgreeWhereLive file (m.step file line (.opens test)) (line + 1) cs cs') :
      AgreeWhereLive file m line (.opens test :: cs) (.opens test' :: cs')
  | elseOpens {m : Machine} {line : Nat} {cs cs' : List Command}
      (dead : m.chains.tail.all (·.live) = false) (test test' : Test)
      (rest : AgreeWhereLive file (m.step file line (.elseOpens test)) (line + 1) cs cs') :
      AgreeWhereLive file m line (.elseOpens test :: cs) (.elseOpens test' :: cs')

/-- Stacks of chains that differ only inside branches that are not taken. -/
inductive SameChains : List Chain → List Chain → Prop where
  | nil : SameChains [] []
  | cons {c c' : Chain} {cs cs' : List Chain} (rest : SameChains cs cs')
      (same : cs.all (·.live) = true → c = c') : SameChains (c :: cs) (c' :: cs')

theorem SameChains.refl (cs : List Chain) : SameChains cs cs := by
  induction cs with
  | nil => exact .nil
  | cons c cs ih => exact .cons ih fun _ => rfl

theorem SameChains.all_live {cs cs' : List Chain} (h : SameChains cs cs') :
    cs.all (·.live) = cs'.all (·.live) := by
  induction h with
  | nil => rfl
  | @cons c c' cs cs' _ same ih =>
    rw [List.all_cons, List.all_cons, ← ih]
    by_cases live : cs.all (·.live) = true
    · rw [same live]
    · rw [Bool.not_eq_true] at live
      rw [live, Bool.and_false, Bool.and_false]

/-- Machines that differ only in what they know of branches that are not taken. -/
structure Machine.Same (m m' : Machine) : Prop where
  environment : m.environment = m'.environment
  macros : m.macros = m'.macros
  chains : SameChains m.chains m'.chains

section Dead

variable {file : String}

theorem Machine.Same.isLive {m m' : Machine} (h : m.Same m') : m.isLive = m'.isLive :=
  h.chains.all_live

theorem Machine.Same.content {m m' : Machine} (h : m.Same m') (line : Nat) {c : Command}
    (hc : c.isContent = true) : (m.step file line c).Same (m'.step file line c) := by
  by_cases live : m.isLive = true
  · have live' : m'.isLive = true := h.isLive ▸ live
    cases c with
    | define name body =>
      rw [Machine.step, Machine.step, if_pos live, if_pos live', h.environment, h.macros]
      exact ⟨rfl, rfl, h.chains⟩
    | undefine name =>
      rw [Machine.step, Machine.step, if_pos live, if_pos live', h.environment]
      exact ⟨rfl, h.macros, h.chains⟩
    | opens | elseOpens | otherwise | endif => cases hc
  · rw [Bool.not_eq_true] at live
    rw [Machine.step_eq_self hc live, Machine.step_eq_self hc (h.isLive ▸ live)]
    exact h

theorem Machine.Same.step {m m' : Machine} (h : m.Same m') (line : Nat) (c : Command) :
    (m.step file line c).Same (m'.step file line c) := by
  cases c with
  | define | undefine => exact h.content line rfl
  | opens test =>
    refine ⟨h.environment, h.macros, h.chains.cons fun _ => ?_⟩
    rw [h.environment]
  | elseOpens test | otherwise | endif =>
    obtain ⟨env, macros, chains⟩ := m
    obtain ⟨env', macros', chains'⟩ := m'
    obtain ⟨rfl, rfl, chains⟩ : env = env' ∧ macros = macros' ∧ SameChains _ _ :=
      ⟨h.environment, h.macros, h.chains⟩
    cases chains with
    | nil => exact h
    | cons rest same => first
      | exact ⟨rfl, rfl, rest⟩
      | exact ⟨rfl, rfl, rest.cons fun live => by rw [same live]⟩

/-- What stands in branches that are not taken changes nothing. -/
theorem AgreeWhereLive.run {m m' : Machine} {line : Nat} {cs cs' : List Command}
    (h : AgreeWhereLive file m line cs cs') (same : m.Same m') :
    (m.run file line cs).Same (m'.run file line cs') := by
  induction h generalizing m' with
  | nil => exact same
  | same c _ ih => exact ih (same.step _ c)
  | @content m line c c' _ _ dead h h' _ ih =>
    rw [Machine.run, Machine.run, Machine.step_eq_self h dead,
      Machine.step_eq_self h' (same.isLive ▸ dead)]
    exact ih same
  | opens dead test test' _ ih =>
    refine ih ⟨same.environment, same.macros, same.chains.cons fun live => ?_⟩
    exact absurd live (Bool.eq_false_iff.mp dead)
  | @elseOpens m line _ _ dead test test' _ ih =>
    refine ih ?_
    obtain ⟨env, macros, chains⟩ := m
    obtain ⟨env', macros', chains'⟩ := m'
    obtain ⟨rfl, rfl, chains⟩ : env = env' ∧ macros = macros' ∧ SameChains _ _ :=
      ⟨same.environment, same.macros, same.chains⟩
    cases chains with
    | nil => exact same
    | cons rest _ =>
      exact ⟨rfl, rfl, rest.cons fun live => absurd live (Bool.eq_false_iff.mp dead)⟩

theorem AgreeWhereLive.isNested {m : Machine} {line : Nat} {cs cs' : List Command}
    (h : AgreeWhereLive file m line cs cs') {opened : List Bool}
    (nested : isNested opened cs = true) : Source.isNested opened cs' = true := by
  induction h generalizing opened with
  | nil => exact nested
  | same c _ ih =>
    rw [Source.isNested] at nested ⊢
    split at nested
    · exact ih nested
    · cases nested
  | @content m line c c' cs cs' dead h h' _ ih =>
    have stays : ∀ {c : Command}, c.isContent = true → c.opened? opened = some opened := by
      intro c content
      cases c <;> first | rfl | exact absurd content Bool.false_ne_true
    rw [Source.isNested, stays h] at nested
    rw [Source.isNested, stays h']
    exact ih nested
  | @opens m line cs cs' dead test test' _ ih =>
    have inside : Source.isNested (false :: opened) cs = true := nested
    exact ih inside
  | elseOpens dead test test' _ ih =>
    rw [Source.isNested] at nested
    cases h : (Command.elseOpens test).opened? opened with
    | none =>
      rw [h] at nested
      cases nested
    | some next =>
      rw [h] at nested
      obtain ⟨os, rfl, rfl⟩ := Command.opened?_elseOpens h
      exact ih nested

end Dead

/-! ## Conditions without definitions -/

/-- Without definitions every name is zero. -/
theorem value?_nil : Condition.value? [] [] = fun _ => some (.int 0) := by
  funext name
  rw [Condition.value?]
  rfl

/-- The meaning of a condition without definitions and without literals that are marked. -/
theorem holds_nil {text : String} (noDefined : Condition.mentionsDefined text = false)
    (plain : HexShield.shieldFrom false text.toList = text.toList) :
    Condition.holds [] text = match evaluateShielded (fun _ => some (.int 0)) text with
      | .ok (some v) => v.isTrue
      | _ => true := by
  have read : evaluate (Condition.value? [] []) (Condition.expand [] text) =
      evaluateShielded (fun _ => some (.int 0)) text := by
    rw [Condition.expand_eq_self _ noDefined, value?_nil, evaluate, HexShield.shield, plain,
      String.ofList_toList]
  exact read ▸ rfl

theorem holds_unknown : Test.holds [] (.condition (some "X")) = false := by
  show Condition.holds [] "X" = false
  rw [holds_nil (by decide) (by simp [HexShield.shieldFrom])]
  decide +kernel

/-- A name by itself is a condition. -/
theorem IsName.isCondition {name : List Char} (h : IsName name) (other : name ≠ "defined".toList) :
    IsCondition name := by
  have gap : ∀ c ∈ ([] : List Char), isGap c = true := nofun
  have ends : (Atom.name name).Ends (written []) := nofun
  exact ⟨.name name, other, .name name, [], rfl, ⟨gap, h, ends, trivial⟩, (List.append_nil name).symm⟩

/-! ## A chain -/

/-- A chain whose first test fails and whose second one holds. -/
def chain : List Command :=
  [.opens (.condition (some "X")), .define "A" (some "1"), .elseOpens (.undefined (some "A")),
    .define "B" (some "2"), .otherwise, .undefine "B", .endif]

/-- The lines of `chain`. -/
def chainLines : List (List Char) :=
  ["#if X", "#define A 1", "#elifndef A", "#define B 2", "#else", "#undef B", "#endif"].map
    String.toList

/-- `chain` with other lines in the branches that are not taken. -/
def otherChain : List Command :=
  [.opens (.condition (some "X")), .undefine "A", .elseOpens (.undefined (some "A")),
    .define "B" (some "2"), .otherwise, .define "B" (some "1"), .endif]

/-- The lines of `otherChain`. -/
def otherLines : List (List Char) :=
  ["#if X", "#undef A", "#elifndef A", "#define B 2", "#else", "#define B 1", "#endif"].map
    String.toList

section Chain

variable {n : Char}

theorem isGap_blank : ∀ c ∈ [' '], isGap c = true := List.forall_mem_singleton.mpr (by decide)

theorem isName_letter (h : n ∈ ['A', 'B', 'X']) : IsName [n] := by
  have letters : ∀ d ∈ ['A', 'B', 'X'], startsWord d = true :=
    List.all_iff_forall_prop.mp (by decide)
  exact ⟨letters n h, nofun⟩

theorem writes_define (h : n ∈ ['A', 'B', 'X']) {c : Char} (hc : c ∈ ['1', '2']) :
    Command.Writes (.define (String.ofList [n]) (some (String.ofList [c])))
      ("#define".toList ++ ([' '] ++ ([n] ++ ([' '] ++ [c])))) := by
  have body : IsBody c [] := by
    rcases List.mem_pair.mp hc with rfl | rfl <;>
      exact isBody_of_plain (by decide) (List.forall_mem_singleton.mpr (by decide))
  exact .defineAs isGap_blank (by decide) (isName_letter h) isGap_blank (by decide) body

theorem writes_undefine (h : n ∈ ['A', 'B', 'X']) :
    Command.Writes (.undefine (String.ofList [n]))
      ("#undef".toList ++ ([' '] ++ ([n] ++ []))) :=
  .undefine isGap_blank (by decide) (isName_letter h) nofun

theorem asks_condition (h : n ∈ ['A', 'B', 'X']) :
    Test.Asks (.condition (some (String.ofList [n]))) "" ([' '] ++ ([n] ++ [])) := by
  have other : [n] ≠ "defined".toList := fun same => by simpa using congrArg List.length same
  have apart : ∀ c ∈ ([' '] ++ [n]).head?, isWord c = false := by
    rintro _ ⟨⟩
    decide
  exact .condition isGap_blank ((isName_letter h).isCondition other) apart nofun

theorem asks_undefined (h : n ∈ ['A', 'B', 'X']) :
    Test.Asks (.undefined (some (String.ofList [n]))) "ndef" ([' '] ++ ([n] ++ [])) :=
  .undefined isGap_blank (by decide) (isName_letter h) nofun

end Chain

theorem writes_chain : List.Forall₂ Command.Writes chain chainLines :=
  .cons (.opens (asks_condition (n := 'X') (by decide))) <|
    .cons (writes_define (n := 'A') (c := '1') (by decide) (by decide)) <|
    .cons (.elseOpens (asks_undefined (n := 'A') (by decide))) <|
    .cons (writes_define (n := 'B') (c := '2') (by decide) (by decide)) <|
    .cons (.otherwise nofun) <| .cons (writes_undefine (n := 'B') (by decide)) <|
    .cons (.endif nofun) .nil

theorem writes_otherChain : List.Forall₂ Command.Writes otherChain otherLines :=
  .cons (.opens (asks_condition (n := 'X') (by decide))) <|
    .cons (writes_undefine (n := 'A') (by decide)) <|
    .cons (.elseOpens (asks_undefined (n := 'A') (by decide))) <|
    .cons (writes_define (n := 'B') (c := '2') (by decide) (by decide)) <|
    .cons (.otherwise nofun) <| .cons (writes_define (n := 'B') (c := '1') (by decide) (by decide)) <|
    .cons (.endif nofun) .nil

theorem run_chain : Machine.run "test.h" (.start []) 1 chain =
    { environment := [("B", "2")]
      macros := [{ name := "B", body := "2", location := ⟨"test.h", 4, 0⟩ }] } := by
  have second : Test.holds [] (.undefined (some "A")) = true := rfl
  have body : Body.clean "2" = "2" := by cbv
  simp [Machine.run, chain, Machine.step, Machine.start, holds_unknown, second, Machine.isLive, body]
  rfl

theorem agree_chain : AgreeWhereLive "test.h" (.start []) 1 chain otherChain := by
  have second : Test.holds [] (.undefined (some "A")) = true := rfl
  refine .same _ (.content ?_ rfl rfl (.same _ (.same _ (.same _ (.content ?_ rfl rfl (.same _ .nil))))))
  · simp [Machine.step, Machine.start, holds_unknown, Machine.isLive]
  · simp [Machine.step, Machine.start, holds_unknown, second, Machine.isLive]

/-! ## Declarations -/

theorem declarations_eq (env : Environment) (file : String) {cs : List Command}
    {ls : List (List Char)} (writes : List.Forall₂ Command.Writes cs ls)
    (nested : isNested [] cs = true) :
    let result := declarations env file (String.ofList (joinedLines ls))
    let m := Machine.run file (.start env) 1 cs
    result.1.macros = m.macros ∧ result.1.enums = [] ∧ result.2 = m.environment := by
  simp [declarations, reading_eq_run env file writes nested, Machine.reading]

/-- A source that is a single definition. -/
theorem macros_single {source name raw : String} {p : Position}
    (h : parts (Blocks.ofTokens (tokensOf source)) = .content (.definition name (some raw) p) .done) :
    (declarations [] "test.h" source).1.macros.length = 1 := by
  simp [declarations, h, Reading.ofParts, Blocks.run, Reading.step]

/-- The declarations of a source of properly nested commands are those of a run of the machine,
and so are the macros after it. Lines in branches that are not taken have no part in them. -/
theorem declarations_eq_run (env : Environment) (file : String) {cs : List Command}
    {ls : List (List Char)} (writes : List.Forall₂ Command.Writes cs ls)
    (nested : isNested [] cs = true) :
    let result := declarations env file (String.ofList (joinedLines ls))
    let m := Machine.run file (.start env) 1 cs
    (result.1.macros = m.macros ∧ result.1.enums = [] ∧ result.2 = m.environment) ∧
      ∀ cs' ls', List.Forall₂ Command.Writes cs' ls' →
        AgreeWhereLive file (.start env) 1 cs cs' →
        let result' := declarations env file (String.ofList (joinedLines ls'))
        result'.1.macros = result.1.macros ∧ result'.1.enums = result.1.enums ∧
          result'.2 = result.2 := by
  intro result m
  have own := declarations_eq env file writes nested
  refine ⟨own, fun cs' ls' writes' agree => ?_⟩
  have other := declarations_eq env file writes' (agree.isNested nested)
  have same := agree.run ⟨rfl, rfl, .refl _⟩
  exact ⟨other.1.trans (same.macros.symm.trans own.1.symm), other.2.1.trans own.2.1.symm,
    other.2.2.trans (same.environment.symm.trans own.2.2.symm)⟩

theorem declarations_eq_run_chain :
    List.Forall₂ Command.Writes chain chainLines ∧ isNested [] chain = true ∧
      (declarations [] "test.h" (String.ofList (joinedLines chainLines))).1.macros =
        [{ name := "B", body := "2", location := ⟨"test.h", 4, 0⟩ }] ∧
      (declarations [] "test.h" (String.ofList (joinedLines chainLines))).2 = [("B", "2")] ∧
      List.Forall₂ Command.Writes otherChain otherLines ∧
      AgreeWhereLive "test.h" (.start []) 1 chain otherChain ∧
      (declarations [] "test.h" (String.ofList (joinedLines otherLines))).2 = [("B", "2")] := by
  obtain ⟨⟨macros, -, environment⟩, untaken⟩ :=
    declarations_eq_run [] "test.h" writes_chain (by decide)
  obtain ⟨-, -, other⟩ := untaken otherChain otherLines writes_otherChain agree_chain
  rw [run_chain] at macros environment
  exact ⟨writes_chain, by decide, macros, environment, writes_otherChain, agree_chain,
    other.trans environment⟩

/-- Sources of which the lexer does not read every line as it stands: a body whose last slash
takes the line end along, a blank in place of a body, a body with the start of a comment in a
literal, and a condition with an operator that conditions do not have. -/
theorem declarations_ne_run :
    (declarations [] "test.h" "#define A 1 /\n#define B 2\n").1.macros ≠
      (Machine.run "test.h" (.start []) 1 [.define "A" (some "1 /"), .define "B" (some "2")]).macros ∧
    (declarations [] "test.h" "#define A \n#define B 2\n").1.macros ≠
      (Machine.run "test.h" (.start []) 1 [.define "A" none, .define "B" (some "2")]).macros ∧
    (declarations [] "test.h" "#define A \"/*\"\n#define B 2\n#define C \"*/\"\n").1.macros ≠
      (Machine.run "test.h" (.start []) 1 [.define "A" (some "\"/*\""), .define "B" (some "2"),
        .define "C" (some "\"*/\"")]).macros ∧
    (declarations [] "test.h" "#if X ? X : ! X\n#define A 1\n#endif\n").1.macros ≠
      (Machine.run "test.h" (.start []) 1
        [.opens (.condition (some "X ? X : ! X")), .define "A" (some "1"), .endif]).macros := by
  have slash : parts (Blocks.ofTokens (tokensOf "#define A 1 /\n#define B 2\n")) =
      .content (.definition "A" (some "1 /\n#define B 2") ⟨1, 0⟩) .done := rfl
  have blank : parts (Blocks.ofTokens (tokensOf "#define A \n#define B 2\n")) =
      .content (.definition "A" (some "#define B 2") ⟨1, 0⟩) .done := rfl
  have comment : parts (Blocks.ofTokens
      (tokensOf "#define A \"/*\"\n#define B 2\n#define C \"*/\"\n")) =
      .content (.definition "A" (some "\"") ⟨1, 0⟩) .done := rfl
  have differ {ms ms' : List MacroDecl} (h : ms.length = 1) (h' : ms'.length ≠ 1) : ms ≠ ms' :=
    fun same => h' (same ▸ h)
  refine ⟨differ (macros_single slash) ?_, differ (macros_single blank) ?_,
    differ (macros_single comment) ?_, ?_⟩
  · simp [Machine.run, Machine.step, Machine.isLive, Machine.start]
  · simp [Machine.run, Machine.step, Machine.isLive, Machine.start]
  · simp [Machine.run, Machine.step, Machine.isLive, Machine.start]
  · have tokens : tokensOf "#if X ? X : ! X\n#define A 1\n#endif\n" =
        [{ kind := .directive (.opens (.condition (some "X"))), text := "#if X ? X : ! X".toList
           gap := [], position := ⟨1, 0⟩, sound := false },
          { kind := .directive (.define "A" (some "1")), text := "#define A 1\n".toList
            gap := ['\n'], position := ⟨2, 0⟩ },
          { kind := .directive .endif, text := "#endif".toList, gap := [], position := ⟨3, 0⟩ }] := by
      decide +kernel
    have none : (declarations [] "test.h" "#if X ? X : ! X\n#define A 1\n#endif\n").1.macros = [] := by
      simp [declarations, tokens, parts, partsFrom, Blocks.ofTokens, Blocks.before,
        Blocks.Level.all, Blocks.append, Reading.ofParts, Blocks.run, holds_unknown]
    have whole : Test.holds [] (.condition (some "X ? X : ! X")) = true := by
      show Condition.holds [] _ = true
      rw [holds_nil (by decide) (by simp [HexShield.shieldFrom, isWord])]
      decide +kernel
    rw [none]
    simp [Machine.run, Machine.step, Machine.isLive, Machine.start, whole]

end ConstLookup.Source
