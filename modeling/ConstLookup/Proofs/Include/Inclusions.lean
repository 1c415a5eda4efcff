import ConstLookup.Proofs.Include.Written
import ConstLookup.Proofs.Source.Branches
import ConstLookup.Proofs.Source.Trace
import Mathlib.Data.List.Perm.Subperm

/-!
  Includes in conditional blocks. The declarations of a source are read branch by branch, with the
  macros that are defined (`tokensTaken`); the scan for includes knows the literals `0` and `1` and
  takes every other branch for one that may be taken. So the scan is to report every include of a
  branch that is taken. It does, but for the branches that begin with `elifdef` or `elifndef`: the
  scan does not know these words, and takes such a branch for a part of the one before it. When all
  conditions before it are a literal `0`, its includes are lost (`Inclusions.lost`).

  Both readings of a source are computed from its blocks: the branches taken from the tokens
  (`includesTaken_source`), the branches seen from the lines (`scan_source`). `includesTaken_scan`
  compares them. In a source without the two words nothing is lost, so every include of a branch
  that is taken is reported, as the scan promises (`taken_subperm_scan`).
-/

namespace ConstLookup

namespace Source

/-! ## Tokens of branches that are taken -/

/-- What a token makes of the environment. -/
def Token.change (env : Environment) (t : Token) : Environment :=
  match t.kind with
  | .directive d =>
    match Part.ofDirective? t.position d with
    | some part => part.change env
    | none => env
  | _ => env

/-- The tokens of blocks in the branches that are taken. -/
def Blocks.takenUnder (env : Environment) (b : Blocks Token) : List Token :=
  b.read (fun env test => test.holds env) Token.change env

/-- The tokens of a source in the branches that are taken. -/
def tokensTaken (env : Environment) (source : String) : List Token :=
  (Blocks.ofTokens (tokensOf source)).takenUnder env

end Source

namespace Include

open Text Source

/-- The includes of a source in the branches that are taken. -/
def includesTaken (env : Environment) (source : String) : List (Kind × String) :=
  (tokensTaken env source).filterMap fun t => includeOf? t.text

/-! ## Sources -/

mutual

/-- Lines of includes and properly nested blocks. -/
inductive Inclusions where
  | done
  | inclusion (l : IncludeLine) (rest : Inclusions)
  /-- A block: the line that begins it, its first branch, further branches, the line that ends
  it. -/
  | block (opener : TestLine) (body : Inclusions) (more : Choices) (close : BareLine)
      (rest : Inclusions)

/-- Further branches of a block. -/
inductive Choices where
  | none
  /-- The last branch, which begins with `else`. -/
  | last (starter : BareLine) (body : Inclusions)
  /-- A branch that begins with `elif`, `elifdef` or `elifndef`. -/
  | branch (starter : TestLine) (body : Inclusions) (more : Choices)

end

mutual

/-- The lines of a source. -/
def Inclusions.lines : Inclusions → List (List Char)
  | .done => []
  | .inclusion l rest => l.text :: rest.lines
  | .block opener body more close rest =>
    opener.text "if" :: (body.lines ++ (more.lines ++ close.text "endif" :: rest.lines))

/-- The lines of further branches. -/
def Choices.lines : Choices → List (List Char)
  | .none => []
  | .last starter body => starter.text "else" :: body.lines
  | .branch starter body more => starter.text "elif" :: (body.lines ++ more.lines)

end

/-- The text of a source. -/
def Inclusions.source (p : Inclusions) : String := String.ofList (joinedLines p.lines)

mutual

/-- All includes of a source. -/
def Inclusions.includes : Inclusions → List (Kind × String)
  | .done => []
  | .inclusion l rest => l.target :: rest.includes
  | .block _ body more _ rest => body.includes ++ (more.includes ++ rest.includes)

/-- All includes of further branches. -/
def Choices.includes : Choices → List (Kind × String)
  | .none => []
  | .last _ body => body.includes
  | .branch _ body more => body.includes ++ more.includes

end

mutual

/-- The includes of branches that are taken: of every block the first one whose test holds. -/
def Inclusions.taken (env : Environment) : Inclusions → List (Kind × String)
  | .done => []
  | .inclusion l rest => l.target :: rest.taken env
  | .block opener body more _ rest =>
    (if opener.question.test.holds env then body.taken env else more.taken env) ++ rest.taken env

/-- The includes of further branches when none before them is taken. -/
def Choices.taken (env : Environment) : Choices → List (Kind × String)
  | .none => []
  | .last _ body => body.taken env
  | .branch starter body more =>
    if starter.question.test.holds env then body.taken env else more.taken env

end

/-- The condition is a literal zero. -/
def Question.isZero : Question → Bool
  | .value c => trim c.text = ['0']
  | .named _ => false

/-- The line asks whether a macro is defined. -/
def Question.isNamed : Question → Bool
  | .value _ => false
  | .named _ => true

mutual

/-- The includes that are taken and lost to the scan. -/
def Inclusions.lost (env : Environment) : Inclusions → List (Kind × String)
  | .done => []
  | .inclusion _ rest => rest.lost env
  | .block opener body more _ rest =>
    (if opener.question.test.holds env then body.lost env
      else more.lost env opener.question.isZero) ++ rest.lost env

/-- The includes of further branches that are taken and lost, when none before them is taken; `off`
says that all conditions so far are a literal zero. All that stands in an `elifdef` or `elifndef`
branch is lost then. -/
def Choices.lost (env : Environment) (off : Bool) : Choices → List (Kind × String)
  | .none => []
  | .last _ body => body.lost env
  | .branch starter body more =>
    if starter.question.test.holds env then
      if off && starter.question.isNamed then body.taken env else body.lost env
    else more.lost env (off && (starter.question.isNamed || starter.question.isZero))

end

/-! ## What the parser takes -/

mutual

/-- The directives of the lines of a source, each with the include that it asks for. -/
def Inclusions.rows : Inclusions → List (Directive × Option (Kind × String))
  | .done => []
  | .inclusion l rest => (.inert, some l.target) :: rest.rows
  | .block opener body more _ rest =>
    (.opens opener.question.test, none) :: (body.rows ++ (more.rows ++ (.endif, none) :: rest.rows))

/-- The directives of the lines of further branches. -/
def Choices.rows : Choices → List (Directive × Option (Kind × String))
  | .none => []
  | .last _ body => (.otherwise, none) :: body.rows
  | .branch starter body more =>
    (.elseOpens starter.question.test, none) :: (body.rows ++ more.rows)

end

/-- A line is read as the directive of a row. -/
def ReadsRow (row : Directive × Option (Kind × String)) (line : List Char) : Prop :=
  ∃ text, OneDirective line row.1 text ∧ includeOf? text = row.2

theorem IncludeLine.readsRow (l : IncludeLine) : ReadsRow (.inert, some l.target) l.text := by
  have none : ∀ c ∈ ([] : List Char), isLineBlank c = true := nofun
  exact ⟨_, l.oneDirective, l.includeOf?_text ⟨[], l.sign.after, none, l.sign.after_blank⟩ ['\n']⟩

theorem BareLine.readsRow_else (l : BareLine) : ReadsRow (.otherwise, none) (l.text "else") :=
  l.oneDirective (by decide) (by decide) fun _ _ => rfl

theorem BareLine.readsRow_endif (l : BareLine) : ReadsRow (.endif, none) (l.text "endif") :=
  l.oneDirective (by decide) (by decide) fun _ _ => rfl

mutual

theorem Inclusions.readsRows (p : Inclusions) : List.Forall₂ ReadsRow p.rows p.lines :=
  match p with
  | .done => .nil
  | .inclusion l rest => .cons l.readsRow rest.readsRows
  | .block opener body more close rest =>
    .cons opener.opens
      (List.rel_append body.readsRows
        (List.rel_append more.readsRows (.cons close.readsRow_endif rest.readsRows)))

theorem Choices.readsRows (more : Choices) : List.Forall₂ ReadsRow more.rows more.lines :=
  match more with
  | .none => .nil
  | .last starter body => .cons starter.readsRow_else body.readsRows
  | .branch starter body more =>
    .cons starter.elseOpens (List.rel_append body.readsRows more.readsRows)

end

/-- The property holds of every line that a source may have. -/
structure OfAllLines (P : List Char → Prop) : Prop where
  inclusion : ∀ l : IncludeLine, P l.text
  test : ∀ l : TestLine, P (l.text "if") ∧ P (l.text "elif")
  bare : ∀ l : BareLine, P (l.text "else") ∧ P (l.text "endif")

mutual

theorem Inclusions.forall_lines {P : List Char → Prop} (h : OfAllLines P) (p : Inclusions) :
    ∀ l ∈ p.lines, P l :=
  match p with
  | .done => nofun
  | .inclusion l rest => List.forall_mem_cons.mpr ⟨h.inclusion l, rest.forall_lines h⟩
  | .block opener body more close rest =>
    List.forall_mem_cons.mpr ⟨(h.test opener).1, List.forall_mem_append.mpr ⟨body.forall_lines h,
      List.forall_mem_append.mpr ⟨more.forall_lines h,
        List.forall_mem_cons.mpr ⟨(h.bare close).2, rest.forall_lines h⟩⟩⟩⟩

theorem Choices.forall_lines {P : List Char → Prop} (h : OfAllLines P) (more : Choices) :
    ∀ l ∈ more.lines, P l :=
  match more with
  | .none => nofun
  | .last starter body => List.forall_mem_cons.mpr ⟨(h.bare starter).1, body.forall_lines h⟩
  | .branch starter body more =>
    List.forall_mem_cons.mpr ⟨(h.test starter).2,
      List.forall_mem_append.mpr ⟨body.forall_lines h, more.forall_lines h⟩⟩

end

theorem TestLine.rests (l : TestLine) : IsRest (l.text "if") ∧ IsRest (l.text "elif") :=
  ⟨l.rest l.mem_lineWords.1, l.rest l.mem_lineWords.2.1⟩

theorem BareLine.rests (l : BareLine) : IsRest (l.text "else") ∧ IsRest (l.text "endif") :=
  ⟨l.rest (by decide), l.rest (by decide)⟩

theorem Inclusions.noNewline (p : Inclusions) : ∀ l ∈ p.lines, '\n' ∉ l :=
  p.forall_lines
    { inclusion := IncludeLine.noNewline
      test := fun l => ⟨l.rests.1.line, l.rests.2.line⟩
      bare := fun l => ⟨l.rests.1.line, l.rests.2.line⟩ }

theorem Inclusions.uncommented (p : Inclusions) : ∀ l ∈ p.lines, Uncommented l :=
  p.forall_lines
    { inclusion := IncludeLine.uncommented
      test := fun l => ⟨uncommented_of_rest l.rests.1, uncommented_of_rest l.rests.2⟩
      bare := fun l => ⟨uncommented_of_rest l.rests.1, uncommented_of_rest l.rests.2⟩ }

/-- The tokens are directives that ask for the includes of the rows. -/
def Keyed (rows : List (Directive × Option (Kind × String))) (ts : List Source.Token) : Prop :=
  ts.map (fun t => (t.kind, includeOf? t.text)) = rows.map fun row => (.directive row.1, row.2)

section Keyed

variable {ts : List Source.Token} {rows others : List (Directive × Option (Kind × String))}

theorem Keyed.nil (h : Keyed [] ts) : ts = [] := List.map_eq_nil_iff.mp h

theorem Keyed.cons {row : Directive × Option (Kind × String)} (h : Keyed (row :: rows) ts) :
    ∃ t rest, ts = t :: rest ∧ t.kind = .directive row.1 ∧ includeOf? t.text = row.2 ∧
      Keyed rows rest := by
  obtain ⟨t, rest, rfl, own, rest'⟩ := List.map_eq_cons_iff.mp h
  obtain ⟨kind, found⟩ := Prod.mk.inj own
  exact ⟨t, rest, rfl, kind, found, rest'⟩

theorem Keyed.append (h : Keyed (rows ++ others) ts) :
    ∃ front back, ts = front ++ back ∧ Keyed rows front ∧ Keyed others back := by
  rw [Keyed, List.map_append] at h
  exact List.map_eq_append_iff.mp h

end Keyed

/-- The tokens of a source are the directives of its lines. -/
theorem Inclusions.keyed_tokensOf (p : Inclusions) : Keyed p.rows (tokensOf p.source) :=
  tokensOf_directives p.readsRows p.noNewline

/-- Under the environment the blocks give the includes, and leave it as it is. -/
structure Shows (env : Environment) (b : Blocks Source.Token) (found : List (Kind × String)) :
    Prop where
  includes : (b.takenUnder env).filterMap (fun t => includeOf? t.text) = found
  environment : (b.takenUnder env).foldl Token.change env = env

section Shows

variable {env : Environment} {b o r : Blocks Source.Token}

theorem shows_done : Shows env .done [] := ⟨rfl, rfl⟩

theorem Shows.content {t : Source.Token} {i : Kind × String} {is : List (Kind × String)}
    (kind : t.kind = .directive .inert) (found : includeOf? t.text = some i) (h : Shows env b is) :
    Shows env (.content t b) (i :: is) := by
  have same : t.change env = env := by
    rw [Token.change, kind]
    rfl
  have read : (Blocks.content t b).takenUnder env = t :: b.takenUnder env := by
    rw [Blocks.takenUnder, Blocks.read, same]
    rfl
  constructor
  · rw [read, List.filterMap_cons]
    simp only [found, h.includes]
  · rw [read, List.foldl_cons, same, h.environment]

theorem Shows.conditional {test : Test} {is js ks : List (Kind × String)} (hb : Shows env b is)
    (ho : Shows env o js) (hr : Shows env r ks) :
    Shows env (.conditional test b o r) ((if test.holds env then is else js) ++ ks) := by
  have branch :
      Shows env (if test.holds env then b else o) (if test.holds env then is else js) := by
    split
    · exact hb
    · exact ho
  have read : (Blocks.conditional test b o r).takenUnder env =
      (if test.holds env then b else o).takenUnder env ++
        r.takenUnder
          (((if test.holds env then b else o).takenUnder env).foldl Token.change env) := by
    rw [apply_ite (Blocks.takenUnder env)]
    rfl
  rw [branch.environment] at read
  constructor
  · rw [read, List.filterMap_append, branch.includes, hr.includes]
  · rw [read, List.foldl_append, branch.environment, hr.environment]

end Shows

mutual

/-- The tokens of a source are put before the branch of the innermost level. -/
theorem Inclusions.foldr_before (p : Inclusions) {ts : List Source.Token} (h : Keyed p.rows ts) :
    ∃ b, (∀ env, Shows env b (p.taken env)) ∧ ∀ inner outer, ts.foldr Blocks.before (inner, outer) =
      ({ inner with branch := b.append inner.branch }, outer) := by
  match p with
  | .done =>
    obtain rfl := h.nil
    exact ⟨.done, fun _ => shows_done, fun _ _ => rfl⟩
  | .inclusion l rest =>
    obtain ⟨t, ts, rfl, kind, found, others⟩ := h.cons
    obtain ⟨b, shown, read⟩ := rest.foldr_before others
    refine ⟨.content t b, fun env => (shown env).content kind found, fun inner outer => ?_⟩
    rw [List.foldr_cons, read, Blocks.before, kind]
    rfl
  | .block opener body more close rest =>
    obtain ⟨t, _, rfl, kind, -, others⟩ := h.cons
    obtain ⟨ts, _, rfl, own, others⟩ := others.append
    obtain ⟨ts', _, rfl, further, others⟩ := others.append
    obtain ⟨t', ts'', rfl, kind', -, others⟩ := others.cons
    obtain ⟨b, shown, read⟩ := body.foldr_before own
    obtain ⟨o, later, shown', read'⟩ := more.foldr_before further
    obtain ⟨r, shown'', read''⟩ := rest.foldr_before others
    refine ⟨.conditional opener.question.test b o r,
      fun env => (shown env).conditional (shown' env) (shown'' env), fun inner outer => ?_⟩
    rw [List.foldr_cons, List.foldr_append, List.foldr_append, List.foldr_cons, read'',
      Blocks.before.eq_def _ (_, outer), kind', read', read, Blocks.before, kind, append_done]
    rfl

/-- The tokens of further branches are put in place of a branch that is not taken. -/
theorem Choices.foldr_before (more : Choices) {ts : List Source.Token} (h : Keyed more.rows ts) :
    ∃ o later, (∀ env, Shows env o (more.taken env)) ∧ ∀ outer, ts.foldr Blocks.before ({}, outer) =
      ({ otherwise := o, later := later }, outer) := by
  match more with
  | .none =>
    obtain rfl := h.nil
    exact ⟨.done, .done, fun _ => shows_done, fun _ => rfl⟩
  | .last starter body =>
    obtain ⟨t, ts, rfl, kind, -, others⟩ := h.cons
    obtain ⟨b, shown, read⟩ := body.foldr_before others
    refine ⟨b, b, shown, fun outer => ?_⟩
    rw [List.foldr_cons, read, Blocks.before, kind]
    simp [Blocks.Level.all, append_done]
  | .branch starter body more =>
    obtain ⟨t, _, rfl, kind, -, others⟩ := h.cons
    obtain ⟨ts, ts', rfl, own, others⟩ := others.append
    obtain ⟨b, shown, read⟩ := body.foldr_before own
    obtain ⟨o, later, shown', read'⟩ := more.foldr_before others
    refine ⟨.conditional starter.question.test b o .done, b.append later, fun env => ?_,
      fun outer => ?_⟩
    · have branch : Shows env (.conditional starter.question.test b o .done)
          ((Choices.branch starter body more).taken env ++ []) :=
        (shown env).conditional (shown' env) shows_done
      rwa [List.append_nil] at branch
    · rw [List.foldr_cons, List.foldr_append, read', read, Blocks.before, kind]
      simp [Blocks.Level.all, append_done]

end

/-- The includes that are read are those of the branches that are taken. -/
theorem includesTaken_source (p : Inclusions) (env : Environment) :
    includesTaken env p.source = p.taken env := by
  obtain ⟨b, shown, read⟩ := p.foldr_before p.keyed_tokensOf
  have blocks : Blocks.ofTokens (tokensOf p.source) = b := by
    rw [Blocks.ofTokens, read]
    simp [Blocks.Level.all, append_done]
  rw [includesTaken, tokensTaken, blocks, (shown env).includes]

/-! ## What the scan finds -/

/-- The state of a block after its first line. -/
def Question.opened : Question → Branch
  | .value c => .ofCondition c.text
  | .named _ => .unknown

/-- The state of a block after the line of a further branch. -/
def Question.next (current : Branch) : Question → Branch
  | .value c => current.following (.ofCondition c.text)
  | .named _ => current

mutual

/-- The includes of branches that the scan takes for live. -/
def Inclusions.seen : Inclusions → List (Kind × String)
  | .done => []
  | .inclusion l rest => l.target :: rest.seen
  | .block opener body more _ rest =>
    (if opener.question.opened.isLive then body.seen else []) ++
      (more.seen opener.question.opened ++ rest.seen)

/-- The includes of further branches that the scan takes for live, by the state of their block. -/
def Choices.seen (current : Branch) : Choices → List (Kind × String)
  | .none => []
  | .last _ body => if (current.following .taken).isLive then body.seen else []
  | .branch starter body more =>
    (if (starter.question.next current).isLive then body.seen else []) ++
      more.seen (starter.question.next current)

end

/-- The includes of the lines that may be active. -/
def foundFrom (stack : List Branch) (ls : List (List Char)) : List (Kind × String) :=
  (activeFrom stack ls).filterMap includeOf?

section Scan

variable (stack : List Branch) (rest : List (List Char))

/-- A line without a conditional directive is kept inside live blocks. -/
theorem foundFrom_plain {line : List Char} (plain : conditional? line = none) :
    foundFrom stack (line :: rest) =
      (if stack.all Branch.isLive then (includeOf? line).toList else []) ++
        foundFrom stack rest := by
  rw [foundFrom, activeFrom, plain]
  dsimp only
  split
  · rw [List.filterMap_cons]
    cases includeOf? line <;> rfl
  · rfl

theorem foundFrom_include (l : IncludeLine) :
    foundFrom stack ((l.text ++ ['\n']) :: rest) =
      (if stack.all Branch.isLive then [l.target] else []) ++ foundFrom stack rest := by
  have found : includeOf? (l.text ++ ['\n']) = some l.target := by
    rw [IncludeLine.text, List.append_assoc, List.append_assoc]
    exact l.includeOf?_text l.sign ['\n']
  rw [foundFrom_plain _ _ l.conditional?_text, found]
  rfl

theorem foundFrom_if (l : TestLine) :
    foundFrom stack ((l.text "if" ++ ['\n']) :: rest) =
      foundFrom ((if stack.all Branch.isLive then l.question.opened else .unknown) :: stack)
        rest := by
  obtain ⟨sign, q⟩ := l
  have reads := TestLine.conditional?_text ⟨sign, q⟩ (TestLine.mem_lineWords ⟨sign, q⟩).1
  rw [foundFrom, activeFrom, reads]
  cases q with
  | value c => rfl
  | named n =>
    obtain ⟨negated, _, _, _, _, _, _, _⟩ := n
    cases negated <;> simp [Question.word, Question.opened, Conditional.all, Conditional.word,
      afterDirective, foundFrom]

theorem foundFrom_elif (l : TestLine) (current : Branch) :
    foundFrom (current :: stack) ((l.text "elif" ++ ['\n']) :: rest) =
      foundFrom (l.question.next current :: stack) rest := by
  obtain ⟨-, mem, -, other⟩ := l.mem_lineWords
  have reads := l.conditional?_text mem
  have noInclude : includeOf? (l.text "elif" ++ ['\n']) = none := by
    rw [TestLine.text, List.append_assoc, List.append_assoc]
    exact includeOf?_word l.sign mem other _
  obtain ⟨sign, q⟩ := l
  cases q with
  | value c =>
    rw [foundFrom, activeFrom, reads]
    rfl
  | named n =>
    -- a word that the scan does not know
    have unknown : ("elif" ++ (Question.named n).word) ∈ ["elifdef", "elifndef"] := by
      cases h : n.negated <;> simp [Question.word, h]
    have none : ∀ w ∈ ["elifdef", "elifndef"], Conditional.all.find? (·.word = w) = none := by
      decide
    rw [none _ unknown] at reads
    rw [foundFrom_plain _ _ reads, noInclude, Option.toList_none, ite_self]
    rfl

theorem foundFrom_else (l : BareLine) (current : Branch) :
    foundFrom (current :: stack) ((l.text "else" ++ ['\n']) :: rest) =
      foundFrom (current.following .taken :: stack) rest := by
  obtain ⟨condition, reads⟩ := l.conditional?_text (show "else" ∈ lineWords by decide)
  rw [foundFrom, activeFrom, reads]
  rfl

theorem foundFrom_endif (l : BareLine) (current : Branch) :
    foundFrom (current :: stack) ((l.text "endif" ++ ['\n']) :: rest) = foundFrom stack rest := by
  obtain ⟨condition, reads⟩ := l.conditional?_text (show "endif" ∈ lineWords by decide)
  rw [foundFrom, activeFrom, reads]
  rfl

end Scan

mutual

/-- The scan finds what it sees of a source, if the blocks around it are live. -/
theorem Inclusions.foundFrom_lines (p : Inclusions) (stack : List Branch)
    (after : List (List Char)) :
    foundFrom stack (p.lines.map (· ++ ['\n']) ++ after) =
      (if stack.all Branch.isLive then p.seen else []) ++ foundFrom stack after :=
  match p with
  | .done => by simp [Inclusions.lines, Inclusions.seen]
  | .inclusion l rest => by
    rw [Inclusions.lines, List.map_cons, List.cons_append, foundFrom_include, rest.foundFrom_lines,
      Inclusions.seen]
    split <;> rfl
  | .block opener body more close rest => by
    have whole : (Inclusions.block opener body more close rest).lines.map (· ++ ['\n']) ++ after =
        (opener.text "if" ++ ['\n']) :: (body.lines.map (· ++ ['\n']) ++
          (more.lines.map (· ++ ['\n']) ++ (close.text "endif" ++ ['\n']) ::
            (rest.lines.map (· ++ ['\n']) ++ after))) := by
      simp [Inclusions.lines]
    rw [whole, foundFrom_if, body.foundFrom_lines, more.foundFrom_lines, rest.foundFrom_lines,
      Inclusions.seen]
    by_cases live : stack.all Branch.isLive = true
    · simp only [live, if_true, List.all_cons, Bool.and_true, List.append_assoc]
    · simp only [live, List.all_cons, Bool.and_false]
      rfl

/-- The scan finds what it sees of the branches that are left of a block. -/
theorem Choices.foundFrom_lines (more : Choices) (current : Branch) (stack : List Branch)
    (close : BareLine) (after : List (List Char)) :
    foundFrom (current :: stack)
        (more.lines.map (· ++ ['\n']) ++ (close.text "endif" ++ ['\n']) :: after) =
      (if stack.all Branch.isLive then more.seen current else []) ++ foundFrom stack after :=
  match more with
  | .none => by simp [Choices.lines, Choices.seen, foundFrom_endif]
  | .last starter body => by
    rw [Choices.lines, List.map_cons, List.cons_append, foundFrom_else, body.foundFrom_lines,
      foundFrom_endif, Choices.seen]
    by_cases live : stack.all Branch.isLive = true
    · simp only [live, if_true, List.all_cons, Bool.and_true]
    · simp only [live, List.all_cons, Bool.and_false]
      rfl
  | .branch starter body more => by
    have whole : (Choices.branch starter body more).lines.map (· ++ ['\n']) ++
          (close.text "endif" ++ ['\n']) :: after =
        (starter.text "elif" ++ ['\n']) :: (body.lines.map (· ++ ['\n']) ++
          (more.lines.map (· ++ ['\n']) ++ (close.text "endif" ++ ['\n']) :: after)) := by
      simp [Choices.lines]
    rw [whole, foundFrom_elif, body.foundFrom_lines, more.foundFrom_lines, Choices.seen]
    by_cases live : stack.all Branch.isLive = true
    · simp only [live, if_true, List.all_cons, Bool.and_true, List.append_assoc]
    · simp only [live, List.all_cons, Bool.and_false]
      rfl

end

/-- The scan reports what it sees. -/
theorem scan_source (p : Inclusions) : scan p.source = p.seen := by
  have found := p.foundFrom_lines [] []
  rw [List.append_nil] at found
  rw [scan, Inclusions.source, String.toList_ofList, stripComments_joinedLines p.uncommented,
    lines_joinedLines p.noNewline, activeLines, ← foundFrom, found]
  simp [foundFrom, activeFrom]

/-! ## What is lost -/

/-- The state of a block none of whose branches is taken so far. -/
def waiting (off : Bool) : Branch := if off then .skipped else .unknown

section Lost

variable {env : Environment}

/-- A condition is a literal, with the value of the literal, or it leaves the scan in the dark. -/
theorem ConditionText.literal_cases (c : ConditionText) (env : Environment) :
    (trim c.text = ['0'] ∧ Branch.ofCondition c.text = .skipped ∧
        (Question.value c).test.holds env = false) ∨
      (trim c.text = ['1'] ∧ Branch.ofCondition c.text = .taken ∧
        (Question.value c).test.holds env = true) ∨
      (trim c.text ≠ ['0'] ∧ Branch.ofCondition c.text = .unknown) := by
  by_cases zero : trim c.text = ['0']
  · refine .inl ⟨zero, by rw [Branch.ofCondition, zero]; rfl, ?_⟩
    rw [c.test_of_literal (by decide) zero]
    exact (holds_literal env).1
  · by_cases one : trim c.text = ['1']
    · refine .inr (.inl ⟨one, by rw [Branch.ofCondition, one]; rfl, ?_⟩)
      rw [c.test_of_literal (by decide) one]
      exact (holds_literal env).2
    · refine .inr (.inr ⟨zero, ?_⟩)
      rw [Branch.ofCondition]
      split
      next same => exact absurd same zero
      next same => exact absurd same one
      next => rfl

/-- The first branch of a block fails: only a literal zero tells the scan. -/
theorem opened_of_fails {q : Question} (fails : q.test.holds env = false) :
    q.opened = waiting q.isZero := by
  cases q with
  | named n => rfl
  | value c =>
    rcases c.literal_cases env with ⟨zero, state, -⟩ | ⟨-, -, holds⟩ | ⟨other, state⟩
    · simp [Question.opened, Question.isZero, waiting, state, zero]
    · rw [holds] at fails
      cases fails
    · simp [Question.opened, Question.isZero, waiting, state, other]

/-- The first branch of a block is taken: the scan takes it for live. -/
theorem isLive_opened {q : Question} (holds : q.test.holds env = true) :
    q.opened.isLive = true := by
  cases q with
  | named n => rfl
  | value c =>
    rcases c.literal_cases env with ⟨-, -, fails⟩ | ⟨-, state, -⟩ | ⟨-, state⟩
    · rw [holds] at fails
      cases fails
    · rw [Question.opened, state]
      rfl
    · rw [Question.opened, state]
      rfl

/-- A further branch fails: the scan still waits if it knows no more than literal zeros. -/
theorem next_of_fails {q : Question} (fails : q.test.holds env = false) (off : Bool) :
    q.next (waiting off) = waiting (off && (q.isNamed || q.isZero)) := by
  cases q with
  | named n => simp [Question.next, Question.isNamed]
  | value c =>
    rcases c.literal_cases env with ⟨zero, state, -⟩ | ⟨-, -, holds⟩ | ⟨other, state⟩
    · cases off <;> simp [Question.next, Question.isNamed, Question.isZero, waiting, state, zero,
        Branch.following]
    · rw [holds] at fails
      cases fails
    · cases off <;> simp [Question.next, Question.isNamed, Question.isZero, waiting, state, other,
        Branch.following]

/-- A further branch is taken: the scan takes it for live unless it does not know its word. -/
theorem isLive_next {q : Question} (holds : q.test.holds env = true) (off : Bool) :
    (q.next (waiting off)).isLive = !(off && q.isNamed) := by
  cases q with
  | named n => cases off <;> rfl
  | value c =>
    rcases c.literal_cases env with ⟨-, -, fails⟩ | ⟨-, state, -⟩ | ⟨-, state⟩
    · rw [holds] at fails
      cases fails
    · cases off <;> rw [Question.next, state] <;> rfl
    · cases off <;> rw [Question.next, state] <;> rfl

mutual

/-- The includes of branches that are taken stand in the source. -/
theorem Inclusions.taken_sublist (p : Inclusions) : (p.taken env).Sublist p.includes :=
  match p with
  | .done => List.Sublist.refl _
  | .inclusion l rest => rest.taken_sublist.cons_cons l.target
  | .block opener body more close rest => by
    rw [Inclusions.taken, Inclusions.includes, ← List.append_assoc]
    refine List.Sublist.append ?_ rest.taken_sublist
    split
    · exact body.taken_sublist.trans (List.sublist_append_left _ _)
    · exact more.taken_sublist.trans (List.sublist_append_right _ _)

theorem Choices.taken_sublist (more : Choices) : (more.taken env).Sublist more.includes :=
  match more with
  | .none => List.Sublist.refl _
  | .last starter body => body.taken_sublist
  | .branch starter body more => by
    rw [Choices.taken, Choices.includes]
    split
    · exact body.taken_sublist.trans (List.sublist_append_left _ _)
    · exact more.taken_sublist.trans (List.sublist_append_right _ _)

end

mutual

/-- The includes that the scan sees stand in the source. -/
theorem Inclusions.seen_sublist (p : Inclusions) : p.seen.Sublist p.includes :=
  match p with
  | .done => List.Sublist.refl _
  | .inclusion l rest => rest.seen_sublist.cons_cons l.target
  | .block opener body more close rest => by
    rw [Inclusions.seen, Inclusions.includes]
    refine List.Sublist.append ?_ ((more.seen_sublist _).append rest.seen_sublist)
    split
    · exact body.seen_sublist
    · exact List.nil_sublist _

theorem Choices.seen_sublist (more : Choices) (current : Branch) :
    (more.seen current).Sublist more.includes :=
  match more with
  | .none => List.Sublist.refl _
  | .last starter body => by
    rw [Choices.seen, Choices.includes]
    split
    · exact body.seen_sublist
    · exact List.nil_sublist _
  | .branch starter body more => by
    rw [Choices.seen, Choices.includes]
    refine List.Sublist.append ?_ (more.seen_sublist _)
    split
    · exact body.seen_sublist
    · exact List.nil_sublist _

end

variable (i : Kind × String)

mutual

/-- An include that is taken is seen or lost, and one that is lost is not seen in its place. -/
theorem Inclusions.count_lost (p : Inclusions) :
    (p.taken env).count i ≤ p.seen.count i + (p.lost env).count i ∧
      p.seen.count i + (p.lost env).count i ≤ p.includes.count i :=
  match p with
  | .done => ⟨Nat.le_refl _, Nat.le_refl _⟩
  | .inclusion l rest => by
    have others := rest.count_lost
    rw [Inclusions.taken, Inclusions.seen, Inclusions.lost, Inclusions.includes, List.count_cons,
      List.count_cons, List.count_cons]
    omega
  | .block opener body more close rest => by
    have own := body.count_lost
    have others := rest.count_lost
    rw [Inclusions.taken, Inclusions.seen, Inclusions.lost, Inclusions.includes]
    simp only [List.count_append]
    cases test : opener.question.test.holds env with
    -- the scan takes the branch for live, and all that it sees of the others is seen besides
    | true =>
      have further := (more.seen_sublist opener.question.opened).count_le i
      rw [isLive_opened test]
      simp only [if_true]
      omega
    -- the scan goes on with no more than it knows of the branches so far
    | false =>
      have state := opened_of_fails test
      have further := more.count_lost opener.question.isZero
      have shown := body.seen_sublist.count_le i
      rw [← state] at further
      simp only [Bool.false_eq_true, if_false]
      split
      · omega
      · rw [List.count_nil]
        omega

/-- Of the branches that are left of a block none of whose branches is taken so far. -/
theorem Choices.count_lost (more : Choices) (off : Bool) :
    (more.taken env).count i ≤ (more.seen (waiting off)).count i + (more.lost env off).count i ∧
      (more.seen (waiting off)).count i + (more.lost env off).count i ≤ more.includes.count i :=
  match more with
  | .none => ⟨Nat.le_refl _, Nat.le_refl _⟩
  | .last starter body => by
    have own := body.count_lost
    have live : ((waiting off).following .taken).isLive = true := by cases off <;> rfl
    rw [Choices.taken, Choices.seen, Choices.lost, Choices.includes, if_pos live]
    exact own
  | .branch starter body more => by
    have own := body.count_lost
    rw [Choices.taken, Choices.seen, Choices.lost, Choices.includes]
    simp only [List.count_append]
    cases test : starter.question.test.holds env with
    | true =>
      have further := (more.seen_sublist (starter.question.next (waiting off))).count_le i
      have selected : (body.taken env).count i ≤ body.includes.count i :=
        body.taken_sublist.count_le i
      rw [isLive_next test]
      simp only [if_true]
      cases off && starter.question.isNamed with
      -- all that the branch asks for is lost, and nothing of it is seen
      | true =>
        simp only [Bool.not_true, Bool.false_eq_true, if_false, if_true, List.count_nil]
        omega
      | false =>
        simp only [Bool.not_false, Bool.false_eq_true, if_false, if_true]
        omega
    | false =>
      have state := next_of_fails test off
      have further := more.count_lost (off && (starter.question.isNamed || starter.question.isZero))
      have shown := body.seen_sublist.count_le i
      rw [← state] at further
      simp only [Bool.false_eq_true, if_false]
      split
      · omega
      · rw [List.count_nil]
        omega

end

end Lost

mutual

/-- What is lost is taken. -/
theorem Inclusions.lost_sublist (p : Inclusions) (env : Environment) :
    (p.lost env).Sublist (p.taken env) :=
  match p with
  | .done => List.Sublist.refl _
  | .inclusion l rest => (rest.lost_sublist env).cons l.target
  | .block opener body more close rest => by
    rw [Inclusions.lost, Inclusions.taken]
    refine List.Sublist.append ?_ (rest.lost_sublist env)
    split
    · exact body.lost_sublist env
    · exact more.lost_sublist env _

theorem Choices.lost_sublist (more : Choices) (env : Environment) (off : Bool) :
    (more.lost env off).Sublist (more.taken env) :=
  match more with
  | .none => List.Sublist.refl _
  | .last starter body => body.lost_sublist env
  | .branch starter body more => by
    rw [Choices.lost, Choices.taken]
    split
    · split
      · exact List.Sublist.refl _
      · exact body.lost_sublist env
    · exact more.lost_sublist env _

end

/-- What is taken is seen or lost. -/
theorem Inclusions.taken_subperm (p : Inclusions) (env : Environment) :
    (p.taken env).Subperm (p.seen ++ p.lost env) := by
  refine List.subperm_ext_iff.mpr fun i _ => ?_
  rw [List.count_append]
  exact (p.count_lost i).1

/-- What is seen and what is lost stand in the source, each in a place of its own. -/
theorem Inclusions.seen_lost_subperm (p : Inclusions) (env : Environment) :
    (p.seen ++ p.lost env).Subperm p.includes := by
  refine List.subperm_ext_iff.mpr fun i _ => ?_
  rw [List.count_append]
  exact (p.count_lost i).2

/-- Every include of a branch that is taken is reported by the scan, but for those that are lost.
These are not reported in any place: with those that the scan reports, each stands for a line of its
own. -/
theorem includesTaken_scan (p : Inclusions) (env : Environment) :
    (p.lost env).Sublist (includesTaken env p.source) ∧
      (includesTaken env p.source).Subperm (scan p.source ++ p.lost env) ∧
      (scan p.source ++ p.lost env).Subperm p.includes := by
  rw [includesTaken_source, scan_source]
  exact ⟨p.lost_sublist env, p.taken_subperm env, p.seen_lost_subperm env⟩

/-- The include of an `elifdef` branch that is taken is lost. -/
theorem scan_loses_elifdef :
    includesTaken [("X", "")] "#if 0\n#elifdef X\n#include \"a.h\"\n#endif\n" =
        [(.quoted, "a.h")] ∧
      scan "#if 0\n#elifdef X\n#include \"a.h\"\n#endif\n" = [] := by
  decide +kernel

/-! ## Sources in which nothing is lost -/

mutual

/-- No branch begins with `elifdef` or `elifndef`. -/
def Inclusions.isKnown : Inclusions → Bool
  | .done => true
  | .inclusion _ rest => rest.isKnown
  | .block _ body more _ rest => body.isKnown && more.isKnown && rest.isKnown

/-- No further branch begins with `elifdef` or `elifndef`. -/
def Choices.isKnown : Choices → Bool
  | .none => true
  | .last _ body => body.isKnown
  | .branch starter body more => !starter.question.isNamed && body.isKnown && more.isKnown

end

mutual

theorem Inclusions.lost_eq_nil (p : Inclusions) (env : Environment) (h : p.isKnown = true) :
    p.lost env = [] :=
  match p with
  | .done => rfl
  | .inclusion _ rest => rest.lost_eq_nil env h
  | .block opener body more close rest => by
    rw [Inclusions.isKnown, Bool.and_eq_true, Bool.and_eq_true] at h
    obtain ⟨⟨own, further⟩, others⟩ := h
    rw [Inclusions.lost, rest.lost_eq_nil env others, body.lost_eq_nil env own,
      more.lost_eq_nil env _ further, ite_self, List.append_nil]

theorem Choices.lost_eq_nil (more : Choices) (env : Environment) (off : Bool)
    (h : more.isKnown = true) : more.lost env off = [] :=
  match more with
  | .none => rfl
  | .last _ body => body.lost_eq_nil env h
  | .branch starter body more => by
    rw [Choices.isKnown, Bool.and_eq_true, Bool.and_eq_true, Bool.not_eq_true'] at h
    obtain ⟨⟨valued, own⟩, further⟩ := h
    rw [Choices.lost, body.lost_eq_nil env own, more.lost_eq_nil env _ further, valued,
      Bool.and_false, if_neg Bool.false_ne_true, ite_self]

end

/-- Without `elifdef` and `elifndef`, every include of a branch that is taken is reported. -/
theorem taken_subperm_scan (p : Inclusions) (env : Environment) (h : p.isKnown = true) :
    (includesTaken env p.source).Subperm (scan p.source) := by
  have all := p.taken_subperm env
  rwa [p.lost_eq_nil env h, List.append_nil, ← includesTaken_source, ← scan_source] at all

end Include

end ConstLookup
