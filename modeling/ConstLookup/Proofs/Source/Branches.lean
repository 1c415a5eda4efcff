import ConstLookup.Proofs.Source.Lines

/-!
  Conditional branches, line by line. `Machine` reads commands one after another and keeps a
  stack of the open chains of branches: of every chain the first branch is taken whose test holds
  under the macros at the start of the chain. The blocks of a source are made from its end, so
  the two meet between lines: `finish` reads what the blocks of the remaining lines hold for the
  open chains, one line before these blocks is one step of the machine (`finish_before`), and so
  a whole source is a run of it (`reading_eq_run`).
-/

namespace ConstLookup.Source

/-! ## Commands with a stack of chains -/

/-- A chain of branches that is open. -/
structure Chain where
  /-- The macros at the start of the chain, which all its tests look at. -/
  start : Environment
  /-- No branch has been taken yet. -/
  waiting : Bool
  /-- The current branch is taken. -/
  live : Bool

/-- What is known between two lines. -/
structure Machine where
  environment : Environment
  /-- The macros declared so far, in order. -/
  macros : List MacroDecl := []
  /-- The open chains, innermost first. -/
  chains : List Chain := []

namespace Machine

/-- What is known before the first line. -/
def start (env : Environment) : Machine := { environment := env }

/-- The current branches of all open chains are taken. -/
def isLive (m : Machine) : Bool := m.chains.all (·.live)

/-- Carry out the command of a line. A condition without a value holds, and the last branch is
taken when no earlier one was. -/
def step (file : String) (m : Machine) (line : Nat) : Command → Machine
  | .define name body =>
    if m.isLive then
      let body := Body.clean (body.getD "")
      let declared : MacroDecl :=
        { name := name, body := body, location := { file := file, line := line, column := 0 } }
      { m with
        environment := m.environment.insert name body
        macros := m.macros ++ [declared] }
    else m
  | .undefine name =>
    if m.isLive then { m with environment := m.environment.erase name } else m
  | .opens test =>
    let taken := test.holds m.environment
    let chain : Chain := { start := m.environment, waiting := !taken, live := taken }
    { m with chains := chain :: m.chains }
  | .elseOpens test =>
    match m.chains with
    | c :: cs =>
      let taken := c.waiting && test.holds c.start
      { m with chains := { c with waiting := c.waiting && !taken, live := taken } :: cs }
    | [] => m
  | .otherwise =>
    match m.chains with
    | c :: cs => { m with chains := { c with waiting := false, live := c.waiting } :: cs }
    | [] => m
  | .endif => { m with chains := m.chains.tail }

/-- Carry out the commands of consecutive lines. -/
def run (file : String) (m : Machine) (line : Nat) : List Command → Machine
  | [] => m
  | c :: cs => run file (m.step file line c) (line + 1) cs

end Machine

/-! ## Properly nested commands -/

/-- The open chains after a command, each with a mark that its last branch has begun; `none` if
the command is out of place. -/
def Command.opened? : Command → List Bool → Option (List Bool)
  | define _ _, opened => some opened
  | undefine _, opened => some opened
  | opens _, opened => some (false :: opened)
  | elseOpens _, false :: opened => some (false :: opened)
  | otherwise, false :: opened => some (true :: opened)
  | endif, _ :: opened => some opened
  | _, _ => none

theorem Command.opened?_elseOpens {test : Test} {opened next : List Bool}
    (h : (elseOpens test).opened? opened = some next) :
    ∃ os, opened = false :: os ∧ next = false :: os := by
  match opened, h with
  | false :: os, rfl => exact ⟨os, rfl, rfl⟩

theorem Command.opened?_otherwise {opened next : List Bool}
    (h : otherwise.opened? opened = some next) : ∃ os, opened = false :: os ∧ next = true :: os := by
  match opened, h with
  | false :: os, rfl => exact ⟨os, rfl, rfl⟩

theorem Command.opened?_endif {opened next : List Bool} (h : endif.opened? opened = some next) :
    ∃ isLast, opened = isLast :: next := by
  match opened, h with
  | isLast :: os, rfl => exact ⟨isLast, rfl⟩

/-- The command changes the macros and not the chains. -/
def Command.isContent : Command → Bool
  | define _ _ => true
  | undefine _ => true
  | _ => false

/-- The commands close the open chains and all that they open. -/
def isNested (opened : List Bool) : List Command → Bool
  | [] => opened.isEmpty
  | c :: cs =>
    match c.opened? opened with
    | some next => isNested next cs
    | none => false

/-! ## Blocks of the remaining lines -/

section Finish

variable (file : String)

/-- Read blocks of directives. -/
def readBlocks (r : Reading) (blocks : Blocks Token) : Reading :=
  (partsFrom 0 blocks).run (fun r test => test.holds r.environment) (Reading.step file) r

/-- Read what the levels of the remaining lines hold for the open chains: of the innermost chain
the rest of its current branch, or what stands in for it, and then the rest of the text around
it. -/
def finish (r : Reading) : List Chain → Blocks.Level × List Blocks.Level → Reading
  | c :: cs, (inner, next :: outer) =>
    let r' :=
      if !cs.all (·.live) then r
      else if c.live then readBlocks file r inner.branch
      else if c.waiting then readBlocks file r inner.otherwise
      else r
    finish r' cs (next, outer)
  | _, (inner, _) => readBlocks file r inner.branch


variable {file : String}

theorem readBlocks_done (r : Reading) : readBlocks file r .done = r := rfl

theorem readBlocks_conditional (r : Reading) (test : Test) (body otherwise rest : Blocks Token) :
    readBlocks file r (.conditional test body otherwise rest) =
      readBlocks file (if test.holds r.environment then readBlocks file r body
        else readBlocks file r otherwise) rest := rfl

/-- The reading that a machine has done. -/
def Machine.reading (m : Machine) : Reading :=
  { environment := m.environment, macros := m.macros.reverse }

/-- Read a directive that stands at the given place. -/
def Reading.directive (file : String) (r : Reading) (p : Position) (d : Directive) : Reading :=
  match Part.ofDirective? p d with
  | some part => r.step file part
  | none => r

theorem readBlocks_directive {t : Token} {d : Directive} (kind : t.kind = .directive d)
    (r : Reading) (rest : Blocks Token) :
    readBlocks file r (.content t rest) = readBlocks file (r.directive file t.position d) rest := by
  rw [Reading.directive]
  cases found : Part.ofDirective? t.position d with
  | some part =>
    have parts : partsFrom 0 (.content t rest) = .content part (partsFrom 0 rest) := by
      rw [partsFrom, kind]
      simp [found]
    rw [readBlocks, parts, Blocks.run, ← readBlocks]
  | none =>
    have parts : partsFrom 0 (.content t rest) = partsFrom 0 rest := by
      rw [partsFrom, kind]
      simp [found]
    rw [readBlocks, parts, ← readBlocks]

/-- A directive that changes the macros is read like its command. -/
theorem readBlocks_content {t : Token} {d : Directive} {c : Command} {line : Nat}
    (kind : t.kind = .directive d) (gives : d.Gives c) (position : t.position = { line := line })
    {m : Machine} (live : m.isLive = true) (h : c.isContent = true) (rest : Blocks Token) :
    readBlocks file m.reading (.content t rest) =
      readBlocks file (m.step file line c).reading rest := by
  rw [readBlocks_directive kind]
  congr 1
  cases gives with
  | define name body =>
    simp [Reading.directive, Part.ofDirective?, Machine.step, live, Machine.reading, Reading.step,
      locationIn, position]
  | undefine trimmed =>
    simp [Reading.directive, Part.ofDirective?, trimmed, Machine.step, live, Machine.reading,
      Reading.step]
  | opens | elseOpens | otherwise | endif => cases h

theorem Machine.step_chains {c : Command} (h : c.isContent = true) (m : Machine) (line : Nat) :
    (m.step file line c).chains = m.chains := by
  cases c with
  | define | undefine =>
    rw [step]
    split <;> rfl
  | opens | elseOpens | otherwise | endif => cases h

theorem Machine.step_eq_self {c : Command} (h : c.isContent = true) {m : Machine}
    (dead : m.isLive = false) (line : Nat) : m.step file line c = m := by
  cases c with
  | define | undefine => rw [step, if_neg (by simp [dead])]
  | opens | elseOpens | otherwise | endif => cases h

theorem before_content {t : Token} {d : Directive} {c : Command} (kind : t.kind = .directive d)
    (gives : d.Gives c) (h : c.isContent = true) (inner : Blocks.Level)
    (outer : List Blocks.Level) :
    Blocks.before t (inner, outer) = ({ inner with branch := .content t inner.branch }, outer) := by
  cases gives with
  | define | undefine => rw [Blocks.before, kind]
  | opens | elseOpens | otherwise | endif => cases h

/-! ## Invariants -/

/-- No chain waits whose current branch is taken, and the macros are still those of the start of a
chain that waits inside branches that are taken. -/
def Settled (env : Environment) : List Chain → Prop
  | [] => True
  | c :: cs => (c.waiting = true → c.live = false) ∧
      (cs.all (·.live) = true → c.waiting = true → c.start = env) ∧ Settled env cs

/-- Where all branches are taken no chain waits, so the macros may change. -/
theorem Settled.of_live {env env' : Environment} {cs : List Chain} (h : Settled env cs)
    (live : cs.all (·.live) = true) : Settled env' cs := by
  induction cs with
  | nil => trivial
  | cons c cs ih =>
    obtain ⟨notTaken, -, rest⟩ := h
    rw [List.all_cons, Bool.and_eq_true] at live
    refine ⟨notTaken, fun _ waits => ?_, ih rest live.2⟩
    exact absurd live.1 (by simp [notTaken waits])

theorem Machine.step_settled {m : Machine} (h : Settled m.environment m.chains) (line : Nat)
    (c : Command) : Settled (m.step file line c).environment (m.step file line c).chains := by
  cases c with
  | define name body =>
    by_cases live : m.isLive = true
    · rw [step, if_pos live]
      exact h.of_live live
    · rw [step, if_neg live]
      exact h
  | undefine name =>
    by_cases live : m.isLive = true
    · rw [step, if_pos live]
      exact h.of_live live
    · rw [step, if_neg live]
      exact h
  | opens test =>
    refine ⟨fun waits => ?_, fun _ _ => rfl, h⟩
    simpa using waits
  | elseOpens test =>
    obtain ⟨env, macros, chains⟩ := m
    cases chains with
    | nil => exact h
    | cons c cs =>
      obtain ⟨-, same, rest⟩ := h
      refine ⟨fun waits => ?_, fun live waits => ?_, rest⟩
      · exact (Bool.not_eq_eq_eq_not ..).mp (Bool.and_eq_true_iff.mp waits).2
      · exact same live (Bool.and_eq_true_iff.mp waits).1
  | otherwise =>
    obtain ⟨env, macros, chains⟩ := m
    cases chains with
    | nil => exact h
    | cons c cs =>
      exact ⟨fun waits => absurd waits Bool.false_ne_true,
        fun _ waits => absurd waits Bool.false_ne_true, h.2.2⟩
  | endif =>
    obtain ⟨env, macros, chains⟩ := m
    cases chains with
    | nil => exact h
    | cons c cs => exact h.2.2

/-- Properly nested commands keep the chains of the machine in step with the open chains. -/
theorem Machine.length_step {c : Command} {opened next : List Bool}
    (h : c.opened? opened = some next) {m : Machine} (length : m.chains.length = opened.length)
    (line : Nat) : (m.step file line c).chains.length = next.length := by
  obtain ⟨env, macros, chains⟩ := m
  cases c with
  | define | undefine =>
    cases h
    rw [step_chains rfl, length]
  | opens test =>
    cases h
    exact congrArg Nat.succ length
  | elseOpens test =>
    obtain ⟨os, rfl, rfl⟩ := Command.opened?_elseOpens h
    cases chains with
    | nil => cases length
    | cons c cs => exact length
  | otherwise =>
    obtain ⟨os, rfl, rfl⟩ := Command.opened?_otherwise h
    cases chains with
    | nil => cases length
    | cons c cs => exact length
  | endif =>
    obtain ⟨isLast, rfl⟩ := Command.opened?_endif h
    cases chains with
    | nil => cases length
    | cons c cs => exact Nat.succ.inj length

/-- The levels fit the open chains: in the last branch of a chain, and outside of all chains,
there are no further branches. -/
def Fits (opened : List Bool) (levels : Blocks.Level × List Blocks.Level) : Prop :=
  List.Forall₂ (fun isLast l => isLast = true → l.later = .done) (opened ++ [true])
    (levels.1 :: levels.2)

theorem fits_nil : Fits [] ({}, []) := .cons (fun _ => rfl) .nil

theorem Fits.withBranch {opened : List Bool} {inner : Blocks.Level} {outer : List Blocks.Level}
    (fits : Fits opened (inner, outer)) (b : Blocks Token) :
    Fits opened ({ inner with branch := b }, outer) := by
  unfold Fits at fits ⊢
  generalize opened ++ [true] = marks at fits ⊢
  cases fits with
  | cons later rest => exact .cons later rest

theorem Fits.cons {isLast : Bool} {opened : List Bool} {inner : Blocks.Level}
    {outer : List Blocks.Level} (fits : Fits (isLast :: opened) (inner, outer)) :
    ∃ next others, outer = next :: others ∧ (isLast = true → inner.later = .done) ∧
      Fits opened (next, others) := by
  obtain ⟨next, others, later, rest, same⟩ := List.forall₂_cons_left_iff.mp fits
  obtain ⟨rfl, rfl⟩ := List.cons.inj same
  cases outer with
  | nil =>
    have length := rest.length_eq
    simp at length
  | cons next others => exact ⟨next, others, rfl, later, rest⟩

theorem Fits.length_eq {opened : List Bool} {levels : Blocks.Level × List Blocks.Level}
    (fits : Fits opened levels) : levels.2.length = opened.length := by
  have length := List.Forall₂.length_eq fits
  simp only [List.length_append, List.length_cons, List.length_nil] at length
  omega

/-- A command before levels that fit what is open after it. -/
theorem Fits.before {t : Token} {d : Directive} {c : Command} (kind : t.kind = .directive d)
    (gives : d.Gives c) {opened next : List Bool} (h : c.opened? opened = some next)
    {levels : Blocks.Level × List Blocks.Level} (fits : Fits next levels) :
    Fits opened (Blocks.before t levels) := by
  obtain ⟨inner, outer⟩ := levels
  cases gives with
  | define name body =>
    cases h
    rw [before_content kind (.define name body) rfl]
    exact fits.withBranch _
  | undefine trimmed =>
    cases h
    rw [before_content kind (.undefine trimmed) rfl]
    exact fits.withBranch _
  | opens test =>
    cases h
    obtain ⟨level, outer, rfl, -, rest⟩ := fits.cons
    rw [Blocks.before, kind]
    exact rest.withBranch _
  | elseOpens test =>
    obtain ⟨opened, rfl, rfl⟩ := Command.opened?_elseOpens h
    obtain ⟨level, outer, rfl, -, rest⟩ := fits.cons
    rw [Blocks.before, kind]
    exact List.Forall₂.cons nofun rest
  | otherwise =>
    obtain ⟨opened, rfl, rfl⟩ := Command.opened?_otherwise h
    obtain ⟨level, outer, rfl, -, rest⟩ := fits.cons
    rw [Blocks.before, kind]
    exact List.Forall₂.cons nofun rest
  | endif =>
    obtain ⟨isLast, rfl⟩ := Command.opened?_endif h
    rw [Blocks.before, kind]
    exact List.Forall₂.cons (fun _ => rfl) fits

/-! ## One line -/

/-- Inside branches that are taken, what is read first belongs to the innermost of them. -/
theorem finish_live {chains : List Chain} (live : chains.all (·.live) = true) {r r' : Reading}
    {inner : Blocks.Level} {b : Blocks Token}
    (h : readBlocks file r b = readBlocks file r' inner.branch) (outer : List Blocks.Level) :
    finish file r chains ({ inner with branch := b }, outer) = finish file r' chains (inner, outer) := by
  match chains, outer with
  | [], _ => exact h
  | _ :: _, [] => exact h
  | c :: cs, next :: outer =>
    obtain ⟨own, others⟩ := Bool.and_eq_true_iff.mp live
    simp only [finish, others, own, Bool.not_true, if_true, h, Bool.false_eq_true, if_false]

/-- Inside a branch that is not taken, the rest of the branch does not matter. -/
theorem finish_dead {chains : List Chain} (dead : chains.all (·.live) = false)
    (inner : Blocks.Level) {outer : List Blocks.Level} (length : chains.length = outer.length)
    (r : Reading) (b : Blocks Token) :
    finish file r chains ({ inner with branch := b }, outer) = finish file r chains (inner, outer) := by
  match chains, outer with
  | [], _ => cases dead
  | _ :: _, [] => cases length
  | c :: cs, next :: outer =>
    rw [List.all_cons, Bool.and_eq_false_iff] at dead
    rcases dead with own | others
    · simp only [finish, own, Bool.false_eq_true, if_false]
    · simp only [finish, others, Bool.not_false, if_true]

section Chains

variable {r : Reading} {c : Chain} {cs : List Chain} {inner next : Blocks.Level}
  {outer : List Blocks.Level}

/-- Before a block that starts, its chain is not open yet. -/
theorem finish_opens (test : Test) (length : cs.length = outer.length) :
    finish file r cs
        ({ next with branch := .conditional test inner.branch inner.otherwise next.branch }, outer) =
      finish file r
        ({ start := r.environment, waiting := !test.holds r.environment
           live := test.holds r.environment } :: cs) (inner, next :: outer) := by
  by_cases live : cs.all (·.live) = true
  · have read : readBlocks file r
        (.conditional test inner.branch inner.otherwise next.branch) = _ :=
      readBlocks_conditional r test inner.branch inner.otherwise next.branch
    rw [finish_live live read, finish]
    cases holds : test.holds r.environment <;> simp [live]
  · rw [Bool.not_eq_true] at live
    rw [finish_dead live next length, finish]
    simp [live]

/-- Before a further branch, the branch stands in for the one before it. -/
theorem finish_elseOpens (test : Test) (notTaken : c.waiting = true → c.live = false)
    (same : cs.all (·.live) = true → c.waiting = true → c.start = r.environment) :
    finish file r (c :: cs)
        ({ otherwise := .conditional test inner.branch inner.otherwise .done
           later := inner.all }, next :: outer) =
      finish file r
        ({ c with
            waiting := c.waiting && !(c.waiting && test.holds c.start)
            live := c.waiting && test.holds c.start } :: cs) (inner, next :: outer) := by
  rw [finish, finish]
  congr 1
  by_cases live : cs.all (·.live) = true
  · cases waits : c.waiting with
    | false => cases c.live <;> simp [live, readBlocks_done]
    | true =>
      rw [same live waits]
      cases holds : test.holds r.environment <;>
        simp [live, notTaken waits, holds, readBlocks_conditional, readBlocks_done]
  · simp [live]

theorem append_done {α : Type} (b : Blocks α) : b.append .done = b := by
  induction b with
  | done => rfl
  | content a rest ih => rw [Blocks.append, ih]
  | conditional test body otherwise rest _ _ ih => rw [Blocks.append, ih]

/-- Before the last branch, the branch stands in for the one before it. -/
theorem finish_otherwise (notTaken : c.waiting = true → c.live = false) (last : inner.later = .done) :
    finish file r (c :: cs) ({ otherwise := inner.all, later := inner.all }, next :: outer) =
      finish file r ({ c with waiting := false, live := c.waiting } :: cs) (inner, next :: outer) := by
  have all : inner.all = inner.branch := by rw [Blocks.Level.all, last, append_done]
  rw [finish, finish]
  congr 1
  by_cases live : cs.all (·.live) = true
  · cases waits : c.waiting with
    | false => cases c.live <;> simp [live, readBlocks_done]
    | true =>
      simp [live, notTaken waits, all]
  · simp [live]

/-- Before the end of a chain, nothing is left of it. -/
theorem finish_endif : finish file r (c :: cs) ({}, next :: outer) = finish file r cs (next, outer) := by
  rw [finish]
  congr 1
  simp [readBlocks_done]

end Chains

/-- One line before the blocks of the remaining lines is one step of the machine. -/
theorem finish_before {t : Token} {d : Directive} {c : Command} {line : Nat}
    (kind : t.kind = .directive d) (gives : d.Gives c) (position : t.position = { line := line })
    {m : Machine} (settled : Settled m.environment m.chains) {opened next : List Bool}
    (h : c.opened? opened = some next) (length : m.chains.length = opened.length)
    {levels : Blocks.Level × List Blocks.Level} (fits : Fits next levels) :
    finish file m.reading m.chains (Blocks.before t levels) =
      finish file (m.step file line c).reading (m.step file line c).chains levels := by
  obtain ⟨inner, outer⟩ := levels
  have levelsLength := fits.length_eq
  have content (hc : c.isContent = true) (same : next = opened) :
      finish file m.reading m.chains (Blocks.before t (inner, outer)) =
        finish file (m.step file line c).reading (m.step file line c).chains (inner, outer) := by
    rw [before_content kind gives hc, Machine.step_chains hc]
    by_cases live : m.isLive = true
    · exact finish_live live (readBlocks_content kind gives position live hc _) _
    · rw [Bool.not_eq_true] at live
      rw [Machine.step_eq_self hc live]
      exact finish_dead live inner (by rw [length, levelsLength, same]) _ _
  obtain ⟨env, macros, chains⟩ := m
  cases gives with
  | define name body => exact content rfl (Option.some.inj h).symm
  | undefine trimmed => exact content rfl (Option.some.inj h).symm
  | opens test =>
    cases h
    obtain ⟨level, outer, rfl, -, rest⟩ := fits.cons
    rw [Blocks.before, kind]
    exact finish_opens test (length.trans rest.length_eq.symm)
  | elseOpens test =>
    obtain ⟨os, rfl, rfl⟩ := Command.opened?_elseOpens h
    obtain ⟨level, outer, rfl, -, -⟩ := fits.cons
    rw [Blocks.before, kind]
    cases chains with
    | nil => cases length
    | cons c cs => exact finish_elseOpens test settled.1 settled.2.1
  | otherwise =>
    obtain ⟨os, rfl, rfl⟩ := Command.opened?_otherwise h
    obtain ⟨level, outer, rfl, last, -⟩ := fits.cons
    rw [Blocks.before, kind]
    cases chains with
    | nil => cases length
    | cons c cs => exact finish_otherwise settled.1 (last rfl)
  | endif =>
    obtain ⟨isLast, rfl⟩ := Command.opened?_endif h
    rw [Blocks.before, kind]
    cases chains with
    | nil => cases length
    | cons c cs => exact finish_endif

/-! ## Whole sources -/

/-- Reading the blocks of the remaining lines is a run of the machine. -/
theorem finish_run {cs : List Command} {ts : List Token} {line : Nat} (gives : GiveFrom line cs ts)
    {opened : List Bool} (nested : isNested opened cs = true) {m : Machine}
    (settled : Settled m.environment m.chains) (length : m.chains.length = opened.length) :
    Fits opened (ts.foldr Blocks.before ({}, [])) ∧
      finish file m.reading m.chains (ts.foldr Blocks.before ({}, [])) =
        (m.run file line cs).reading := by
  induction gives generalizing opened m with
  | nil =>
    obtain rfl := List.isEmpty_iff.mp nested
    obtain none := List.eq_nil_of_length_eq_zero length
    rw [none]
    exact ⟨fits_nil, rfl⟩
  | @cons line c cs t ts d kind gives position _ ih =>
    rw [isNested] at nested
    cases h : c.opened? opened with
    | none => rw [h] at nested; cases nested
    | some next =>
      rw [h] at nested
      obtain ⟨fits, reads⟩ :=
        ih nested (Machine.step_settled settled line c) (Machine.length_step h length line)
      refine ⟨fits.before kind gives h, ?_⟩
      rw [List.foldr_cons, finish_before kind gives position settled h length fits, reads]
      rfl

/-- Blocks that fit no open chain are those of the whole text. -/
theorem Fits.ofTokens {ts : List Token} (fits : Fits [] (ts.foldr Blocks.before ({}, []))) :
    Blocks.ofTokens ts = (ts.foldr Blocks.before ({}, [])).1.branch := by
  rw [Blocks.ofTokens]
  generalize ts.foldr Blocks.before ({}, []) = levels at fits ⊢
  obtain ⟨inner, outer⟩ := levels
  obtain ⟨_, _, last, rest, same⟩ := List.forall₂_cons_left_iff.mp fits
  obtain ⟨rfl, rfl⟩ := List.cons.inj same
  obtain rfl := List.forall₂_nil_left_iff.mp rest
  show inner.all = inner.branch
  rw [Blocks.Level.all, last rfl, append_done]

end Finish

/-- A source of properly nested commands is read like a run of the machine. -/
theorem reading_eq_run (env : Environment) (file : String) {cs : List Command}
    {ls : List (List Char)} (writes : List.Forall₂ Command.Writes cs ls)
    (nested : isNested [] cs = true) :
    Reading.ofParts file env (parts (Blocks.ofTokens (tokensOf (String.ofList (joinedLines ls))))) =
      (Machine.run file (.start env) 1 cs).reading := by
  have start : Settled (Machine.start env).environment (Machine.start env).chains := trivial
  obtain ⟨fits, reads⟩ := finish_run (tokensOf_lines writes) nested start rfl
  rw [fits.ofTokens, ← reads]
  rfl

end ConstLookup.Source
