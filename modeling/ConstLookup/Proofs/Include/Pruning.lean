import ConstLookup.Include.Scan
import ConstLookup.Proofs.Text.Lines
import Mathlib.Data.Bool.AllAny
import Mathlib.Tactic.Cases

/-!
  Lines that may be active, read off the nesting of blocks. Which lines hold the directives of
  blocks is decided by how they are written (`conditional?_eq_some_iff`). Properly nested lines are a
  passage: plain lines and blocks, and a block has a first branch and further ones, each with a
  passage of its own (`isNested_iff`). The branches of a block are judged in turn (`Passage.live`).
  A scan of the lines keeps a stack of open blocks instead, and the state of a block says how the
  branches that are left are to be judged (`Alternatives.liveAfter`); so the scan keeps what the
  recursion keeps (`activeFrom_lines`, `activeLines_eq_live`).
-/

namespace ConstLookup.Include

open ConstLookup.Text

/-! ## Lines of directives -/

/-- The line holds the directive: its sign stands first and its word next, with nothing but blanks
before each of them, and no word character follows. The condition is what is left of the line. -/
def Conditional.Writes (d : Conditional) (condition line : List Char) : Prop :=
  ∃ before after argument, line = before ++ '#' :: (after ++ (d.word.toList ++ argument)) ∧
    (∀ c ∈ before, isLineBlank c = true) ∧ (∀ c ∈ after, isLineBlank c = true) ∧
    (∀ c ∈ argument.head?, isWord c = false) ∧ condition = argument.takeWhile (· ≠ '\n')

section Spaced

variable {before after rest : List Char}

/-- Blanks around a sign are skipped. -/
theorem afterHash?_spaced (hb : ∀ c ∈ before, isLineBlank c = true)
    (ha : ∀ c ∈ after, isLineBlank c = true) (h : ∀ c ∈ rest.head?, isLineBlank c = false) :
    afterHash? (before ++ '#' :: (after ++ rest)) = some rest := by
  have sign : skipLineBlanks (before ++ '#' :: (after ++ rest)) = '#' :: (after ++ rest) := by
    refine dropWhile_run hb ?_
    rintro _ ⟨⟩
    decide
  have word : skipLineBlanks (after ++ rest) = rest := dropWhile_run ha h
  rw [afterHash?, sign]
  exact congrArg some word

theorem exists_of_afterHash? {line : List Char} (h : afterHash? line = some rest) :
    ∃ before after, line = before ++ '#' :: (after ++ rest) ∧
      (∀ c ∈ before, isLineBlank c = true) ∧ ∀ c ∈ after, isLineBlank c = true := by
  have blank (cs : List Char) : ∀ c ∈ cs.takeWhile isLineBlank, isLineBlank c = true :=
    List.all_eq_true.mp List.all_takeWhile
  rw [afterHash?] at h
  split at h
  · next more sign =>
    obtain rfl := Option.some.inj h
    refine ⟨line.takeWhile isLineBlank, more.takeWhile isLineBlank, ?_, blank line, blank more⟩
    rw [skipLineBlanks, List.takeWhile_append_dropWhile, ← sign, skipLineBlanks,
      List.takeWhile_append_dropWhile]
  · cases h

/-- No word begins with a blank. -/
theorem not_blank_of_word {word : List Char} (letters : ∀ c ∈ word, isWord c = true)
    (nonempty : word ≠ []) : ∀ c ∈ (word ++ rest).head?, isLineBlank c = false := by
  obtain ⟨c, cs, rfl⟩ := List.exists_cons_of_ne_nil nonempty
  rintro _ ⟨⟩
  refine Bool.eq_false_iff.mpr fun blank => ?_
  have letter := letters c List.mem_cons_self
  rw [isLineBlank, Bool.or_eq_true, decide_eq_true_eq, decide_eq_true_eq] at blank
  rcases blank with rfl | rfl <;> revert letter <;> decide

theorem conditional_words :
    ∀ d ∈ Conditional.all, d.word.toList ≠ [] ∧ ∀ c ∈ d.word.toList, isWord c = true := by
  simp only [← List.all_iff_forall_prop]
  decide

/-- The scan knows the words of its own conditionals, and no others. -/
theorem conditional?_spaced (hb : ∀ c ∈ before, isLineBlank c = true)
    (ha : ∀ c ∈ after, isLineBlank c = true) {word : String} (nonempty : word.toList ≠ [])
    (letters : ∀ c ∈ word.toList, isWord c = true) {argument : List Char}
    (apart : ∀ c ∈ argument.head?, isWord c = false) :
    conditional? (before ++ '#' :: (after ++ (word.toList ++ argument))) =
      (Conditional.all.find? (·.word = word)).map fun d => (d, argument.takeWhile (· ≠ '\n')) := by
  have known := conditional_words
  rw [conditional?, afterHash?_spaced hb ha (not_blank_of_word letters nonempty), Option.bind_some]
  generalize Conditional.all = ds at known
  induction ds with
  | nil => rfl
  | cons d ds ih =>
    obtain ⟨own, others⟩ := List.forall_mem_cons.mp known
    rw [List.findSome?_cons, List.find?_cons, ih others, afterWord?_word own.2 letters apart]
    by_cases same : d.word = word
    · simp [same]
    · simp [same]

end Spaced

/-- The lines that hold a conditional directive are those that are written as one. -/
theorem conditional?_eq_some_iff {line condition : List Char} {d : Conditional} :
    conditional? line = some (d, condition) ↔ d.Writes condition line := by
  constructor
  · intro h
    obtain ⟨text, sign, found⟩ := Option.bind_eq_some_iff.mp h
    obtain ⟨before, after, rfl, hb, ha⟩ := exists_of_afterHash? sign
    obtain ⟨other, -, read⟩ := List.exists_of_findSome?_eq_some found
    obtain ⟨argument, word, same⟩ := Option.map_eq_some_iff.mp read
    obtain ⟨rfl, rfl⟩ := Prod.mk.inj same
    obtain ⟨rfl, apart⟩ := afterWord?_eq_some_iff.mp word
    exact ⟨before, after, argument, rfl, hb, ha, apart, rfl⟩
  · rintro ⟨before, after, argument, rfl, hb, ha, apart, rfl⟩
    obtain ⟨nonempty, letters⟩ := conditional_words d (by cases d <;> decide)
    have found : Conditional.all.find? (·.word = d.word) = some d := by cases d <;> decide
    rw [conditional?_spaced hb ha nonempty letters apart, found]
    rfl

/-! ## Lines of blocks -/

/-- A line without a conditional directive. -/
structure PlainLine where
  text : List Char
  plain : conditional? text = none

/-- A line with one of some conditional directives, and the text after its word. -/
structure DirectiveLine (among : List Conditional) where
  text : List Char
  directive : Conditional
  condition : List Char
  reads : conditional? text = some (directive, condition)
  mem : directive ∈ among

/-- The directives that begin a block. -/
def opening : List Conditional := [.ifdef, .ifndef, .ifValue]

/-- The directives that begin a further branch. -/
def continuing : List Conditional := [.elseIf, .otherwise]

/-- The directive that ends a block. -/
def closing : List Conditional := [.endif]

/-! ## Judging branches -/

/-- What the directive of a branch says when no earlier branch of its block is known to be taken. -/
inductive Verdict where
  /-- The branch and all later ones may be taken. -/
  | unclear
  /-- The branch is not taken. -/
  | fails
  /-- The branch is taken, and no later one is. -/
  | holds
  deriving DecidableEq, Repr

namespace Verdict

/-- What a condition says: only the literals `0` and `1` are clear. -/
def ofCondition (condition : List Char) : Verdict :=
  if trim condition = ['0'] then fails
  else if trim condition = ['1'] then holds
  else unclear

/-- The lines of a block, from those of the branch, those of all later branches, and those that
are found when the later branches are judged. -/
def choose (v : Verdict) (own all judged : List (List Char)) : List (List Char) :=
  match v with
  | unclear => own ++ all
  | fails => judged
  | holds => own

/-- The state of a block whose branch has begun. -/
def state : Verdict → Branch
  | unclear => .unknown
  | fails => .skipped
  | holds => .taken

theorem state_ofCondition (condition : List Char) :
    (ofCondition condition).state = Branch.ofCondition condition := by
  unfold ofCondition Branch.ofCondition
  split
  · next zero => rw [zero]; rfl
  · next notZero =>
    split
    · next one => rw [one]; rfl
    · next notOne =>
      split
      · next zero => exact absurd zero notZero
      · next one => exact absurd one notOne
      · rfl

end Verdict

/-- What the directive of a line says. -/
def DirectiveLine.verdict {among : List Conditional} (l : DirectiveLine among) : Verdict :=
  match l.directive with
  | .ifValue | .elseIf => .ofCondition l.condition
  | .otherwise => .holds
  | .ifdef | .ifndef | .endif => .unclear

/-! ## Passages -/

mutual

/-- Properly nested lines. -/
inductive Passage where
  | done
  | line (l : PlainLine) (rest : Passage)
  /-- A block: the line that begins it, its first branch, further branches, the line that ends
  it. -/
  | block (opener : DirectiveLine opening) (body : Passage) (more : Alternatives)
      (close : DirectiveLine closing) (rest : Passage)

/-- Further branches of a block. -/
inductive Alternatives where
  | none
  | branch (starter : DirectiveLine continuing) (body : Passage) (more : Alternatives)

end

mutual

/-- The lines of a passage. -/
def Passage.lines : Passage → List (List Char)
  | .done => []
  | .line l rest => l.text :: rest.lines
  | .block opener body more close rest =>
    opener.text :: (body.lines ++ (more.lines ++ close.text :: rest.lines))

/-- The lines of further branches. -/
def Alternatives.lines : Alternatives → List (List Char)
  | .none => []
  | .branch starter body more => starter.text :: (body.lines ++ more.lines)

end

mutual

/-- The plain lines of branches that may be taken. -/
def Passage.live : Passage → List (List Char)
  | .done => []
  | .line l rest => l.text :: rest.live
  | .block opener body more _ rest =>
    opener.verdict.choose body.live more.allLive more.live ++ rest.live

/-- The plain lines of further branches, judged in turn. -/
def Alternatives.live : Alternatives → List (List Char)
  | .none => []
  | .branch starter body more => starter.verdict.choose body.live more.allLive more.live

/-- The plain lines of further branches that may all be taken. -/
def Alternatives.allLive : Alternatives → List (List Char)
  | .none => []
  | .branch _ body more => body.live ++ more.allLive

end

/-! ## The stack of open blocks -/

section Stack

variable (stack : List Branch)

theorem activeFrom_directive {among : List Conditional} (l : DirectiveLine among)
    (rest : List (List Char)) :
    activeFrom stack (l.text :: rest) =
      activeFrom (afterDirective stack l.directive l.condition) rest := by
  rw [activeFrom, l.reads]

theorem afterDirective_opening (l : DirectiveLine opening) :
    afterDirective stack l.directive l.condition =
      (if stack.all Branch.isLive then l.verdict.state else .unknown) :: stack := by
  obtain ⟨text, directive, condition, reads, mem⟩ := l
  simp only [opening, List.mem_cons, List.not_mem_nil, or_false] at mem
  rcases mem with rfl | rfl | rfl
  · simp [afterDirective, DirectiveLine.verdict, Verdict.state]
  · simp [afterDirective, DirectiveLine.verdict, Verdict.state]
  · simp only [afterDirective, DirectiveLine.verdict, Verdict.state_ofCondition]

theorem afterDirective_continuing (l : DirectiveLine continuing) (top : Branch) :
    afterDirective (top :: stack) l.directive l.condition =
      top.following l.verdict.state :: stack := by
  obtain ⟨text, directive, condition, reads, mem⟩ := l
  simp only [continuing, List.mem_cons, List.not_mem_nil, or_false] at mem
  rcases mem with rfl | rfl
  · simp only [afterDirective, DirectiveLine.verdict, Verdict.state_ofCondition]
  · simp only [afterDirective, DirectiveLine.verdict, Verdict.state]

theorem afterDirective_closing (l : DirectiveLine closing) (top : Branch) :
    afterDirective (top :: stack) l.directive l.condition = stack := by
  obtain ⟨text, directive, condition, reads, mem⟩ := l
  obtain rfl := List.mem_singleton.mp mem
  rfl

end Stack

/-- The plain lines of the branches that are left, by the state of their block. -/
def Alternatives.liveAfter (more : Alternatives) : Branch → List (List Char)
  | .unknown => more.allLive
  | .skipped => more.live
  | .taken | .done => []

theorem Alternatives.liveAfter_none (current : Branch) :
    Alternatives.none.liveAfter current = [] := by
  cases current <;> rfl

/-- The state of a block after its next branch has begun says how that branch and those after it are
to be judged. -/
theorem Alternatives.liveAfter_branch (starter : DirectiveLine continuing) (body : Passage)
    (more : Alternatives) (current : Branch) :
    (Alternatives.branch starter body more).liveAfter current =
      (if (current.following starter.verdict.state).isLive then body.live else []) ++
        more.liveAfter (current.following starter.verdict.state) := by
  cases current with
  | unknown => rfl
  | skipped =>
    rw [liveAfter, live]
    cases starter.verdict with
    | unclear => rfl
    | fails => rfl
    | holds => exact (List.append_nil _).symm
  | taken => rfl
  | done => rfl

mutual

/-- A passage leaves the stack as it is, and its lines are kept if the blocks around it are live. -/
theorem activeFrom_lines (p : Passage) (stack : List Branch) (after : List (List Char)) :
    activeFrom stack (p.lines ++ after) =
      (if stack.all Branch.isLive then p.live else []) ++ activeFrom stack after :=
  match p with
  | .done => by simp [Passage.lines, Passage.live]
  | .line l rest => by
    rw [Passage.lines, List.cons_append, activeFrom, l.plain]
    dsimp only
    rw [activeFrom_lines rest stack after, Passage.live]
    split <;> rfl
  | .block opener body more close rest => by
    have lines : (Passage.block opener body more close rest).lines ++ after =
        opener.text :: (body.lines ++ (more.lines ++ close.text :: (rest.lines ++ after))) := by
      simp [Passage.lines]
    rw [lines, activeFrom_directive, afterDirective_opening, activeFrom_lines body,
      activeFrom_alternatives more, activeFrom_lines rest stack after, Passage.live]
    by_cases live : stack.all Branch.isLive = true
    · rw [if_pos live, List.all_cons, live, Bool.and_true]
      cases opener.verdict <;>
        simp [Verdict.choose, Verdict.state, Branch.isLive, Alternatives.liveAfter]
    · rw [if_neg live, List.all_cons, Bool.eq_false_iff.mpr live, Bool.and_false]
      rfl

/-- The branches that are left of a block end with it. -/
theorem activeFrom_alternatives (more : Alternatives) (current : Branch) (stack : List Branch)
    (close : DirectiveLine closing) (after : List (List Char)) :
    activeFrom (current :: stack) (more.lines ++ close.text :: after) =
      (if stack.all Branch.isLive then more.liveAfter current else []) ++ activeFrom stack after :=
  match more with
  | .none => by
    rw [Alternatives.lines, List.nil_append, activeFrom_directive, afterDirective_closing,
      Alternatives.liveAfter_none, ite_self, List.nil_append]
  | .branch starter body more => by
    have lines : (Alternatives.branch starter body more).lines ++ close.text :: after =
        starter.text :: (body.lines ++ (more.lines ++ close.text :: after)) := by
      simp [Alternatives.lines]
    rw [lines, activeFrom_directive, afterDirective_continuing, activeFrom_lines body,
      activeFrom_alternatives more, Alternatives.liveAfter_branch]
    by_cases live : stack.all Branch.isLive = true
    · rw [if_pos live, if_pos live, List.all_cons, live, Bool.and_true, List.append_assoc]
    · rw [if_neg live, if_neg live, List.all_cons, Bool.eq_false_iff.mpr live, Bool.and_false]
      rfl

end

/-! ## Nesting -/

/-- The directives end all open blocks, of which there are `depth`, and all that they begin, and
none of them stands outside its block. -/
def isNested (depth : Nat) : List (List Char) → Bool
  | [] => depth = 0
  | line :: rest =>
    match conditional? line with
    | none => isNested depth rest
    | some (.ifdef, _) | some (.ifndef, _) | some (.ifValue, _) => isNested (depth + 1) rest
    | some (.elseIf, _) | some (.otherwise, _) => 0 < depth && isNested depth rest
    | some (.endif, _) => 0 < depth && isNested (depth - 1) rest

section Nesting

variable {depth : Nat} {after : List (List Char)}

theorem isNested_plain (l : PlainLine) :
    isNested depth (l.text :: after) = isNested depth after := by
  rw [isNested, l.plain]

theorem isNested_opening (l : DirectiveLine opening) :
    isNested depth (l.text :: after) = isNested (depth + 1) after := by
  obtain ⟨text, directive, condition, reads, mem⟩ := l
  rw [isNested, reads]
  simp only [opening, List.mem_cons, List.not_mem_nil, or_false] at mem
  rcases mem with rfl | rfl | rfl <;> rfl

theorem isNested_continuing (l : DirectiveLine continuing) :
    isNested (depth + 1) (l.text :: after) = isNested (depth + 1) after := by
  obtain ⟨text, directive, condition, reads, mem⟩ := l
  rw [isNested, reads]
  simp only [continuing, List.mem_cons, List.not_mem_nil, or_false] at mem
  rcases mem with rfl | rfl <;> simp

theorem isNested_closing (l : DirectiveLine closing) :
    isNested (depth + 1) (l.text :: after) = isNested depth after := by
  obtain ⟨text, directive, condition, reads, mem⟩ := l
  obtain rfl := List.mem_singleton.mp mem
  rw [isNested, reads]
  simp

end Nesting

mutual

theorem Passage.isNested_lines (p : Passage) (depth : Nat) (after : List (List Char)) :
    isNested depth (p.lines ++ after) = isNested depth after :=
  match p with
  | .done => rfl
  | .line l rest => by
    rw [Passage.lines, List.cons_append, isNested_plain, rest.isNested_lines]
  | .block opener body more close rest => by
    have lines : (Passage.block opener body more close rest).lines ++ after =
        opener.text :: (body.lines ++ (more.lines ++ (close.text :: (rest.lines ++ after)))) := by
      simp [Passage.lines]
    rw [lines, isNested_opening, body.isNested_lines, more.isNested_lines, isNested_closing,
      rest.isNested_lines]

theorem Alternatives.isNested_lines (more : Alternatives) (depth : Nat) (after : List (List Char)) :
    isNested (depth + 1) (more.lines ++ after) = isNested (depth + 1) after :=
  match more with
  | .none => rfl
  | .branch starter body more => by
    rw [Alternatives.lines, List.cons_append, List.append_assoc, isNested_continuing,
      body.isNested_lines, more.isNested_lines]

end

/-- Every line is plain, or it begins a block, begins a further branch or ends a block. -/
theorem line_cases (line : List Char) :
    (∃ l : PlainLine, l.text = line) ∨ (∃ l : DirectiveLine opening, l.text = line) ∨
      (∃ l : DirectiveLine continuing, l.text = line) ∨
        ∃ l : DirectiveLine closing, l.text = line := by
  cases reads : conditional? line with
  | none => exact .inl ⟨⟨line, reads⟩, rfl⟩
  | some found =>
    obtain ⟨d, condition⟩ := found
    cases d with
    | ifdef => exact .inr (.inl ⟨⟨line, _, condition, reads, by decide⟩, rfl⟩)
    | ifndef => exact .inr (.inl ⟨⟨line, _, condition, reads, by decide⟩, rfl⟩)
    | ifValue => exact .inr (.inl ⟨⟨line, _, condition, reads, by decide⟩, rfl⟩)
    | elseIf => exact .inr (.inr (.inl ⟨⟨line, _, condition, reads, by decide⟩, rfl⟩))
    | otherwise => exact .inr (.inr (.inl ⟨⟨line, _, condition, reads, by decide⟩, rfl⟩))
    | endif => exact .inr (.inr (.inr ⟨⟨line, _, condition, reads, by decide⟩, rfl⟩))

/-- The lines begin with one that ends the branch around it, if there is any. -/
def EndsBranch (ls : List (List Char)) : Prop :=
  ∀ line ∈ ls.head?, ∃ d ∈ continuing ++ closing,
    ∃ condition, conditional? line = some (d, condition)

theorem EndsBranch.not_plain {l : PlainLine} {ls : List (List Char)}
    (h : EndsBranch (l.text :: ls)) : False := by
  obtain ⟨d, -, condition, reads⟩ := h l.text rfl
  rw [l.plain] at reads
  cases reads

theorem EndsBranch.not_opening {l : DirectiveLine opening} {ls : List (List Char)}
    (h : EndsBranch (l.text :: ls)) : False := by
  obtain ⟨d, ends, condition, reads⟩ := h l.text rfl
  rw [l.reads] at reads
  obtain ⟨rfl, -⟩ := Prod.mk.inj (Option.some.inj reads)
  have apart : ∀ d ∈ continuing ++ closing, d ∉ opening := by decide
  exact apart _ ends l.mem

mutual

/-- Nested lines begin with a passage that reaches to the end of the branch around it. -/
theorem exists_passage_of_nested (ls : List (List Char)) {depth : Nat}
    (nested : isNested depth ls = true) :
    ∃ (p : Passage) (rest : List (List Char)),
      ls = p.lines ++ rest ∧ isNested depth rest = true ∧ EndsBranch rest := by
  match ls with
  | [] => exact ⟨.done, [], rfl, nested, nofun⟩
  | line :: ls =>
    rcases line_cases line with ⟨l, rfl⟩ | ⟨opener, rfl⟩ | ⟨l, rfl⟩ | ⟨l, rfl⟩
    · rw [isNested_plain] at nested
      obtain ⟨p, rest, split, left, ends⟩ := exists_passage_of_nested ls nested
      exact ⟨.line l p, rest, by rw [split, Passage.lines, List.cons_append], left, ends⟩
    · rw [isNested_opening] at nested
      obtain ⟨body, others, front, inner, ends⟩ := exists_passage_of_nested ls nested
      have shorter : others.length ≤ ls.length := by rw [front, List.length_append]; omega
      obtain ⟨more, close, behind, middle, outer⟩ := exists_alternatives_of_nested others inner ends
      have shortest : behind.length < others.length := by
        rw [middle, List.length_append, List.length_cons]; omega
      obtain ⟨p, rest, back, left, ends⟩ := exists_passage_of_nested behind outer
      refine ⟨.block opener body more close p, rest, ?_, left, ends⟩
      rw [front, middle, back]
      simp [Passage.lines]
    · refine ⟨.done, l.text :: ls, rfl, nested, ?_⟩
      rintro _ ⟨⟩
      exact ⟨l.directive, List.mem_append_left _ l.mem, l.condition, l.reads⟩
    · refine ⟨.done, l.text :: ls, rfl, nested, ?_⟩
      rintro _ ⟨⟩
      exact ⟨l.directive, List.mem_append_right _ l.mem, l.condition, l.reads⟩
termination_by ls.length
decreasing_by all_goals simp only [List.length_cons]; omega

/-- Nested lines inside a block go on, from the end of a branch, with further branches and the end
of the block. -/
theorem exists_alternatives_of_nested (ls : List (List Char)) {depth : Nat}
    (nested : isNested (depth + 1) ls = true) (ends : EndsBranch ls) :
    ∃ (more : Alternatives) (close : DirectiveLine closing) (rest : List (List Char)),
      ls = more.lines ++ close.text :: rest ∧ isNested depth rest = true := by
  match ls with
  | [] => simp [isNested] at nested
  | line :: ls =>
    rcases line_cases line with ⟨l, rfl⟩ | ⟨l, rfl⟩ | ⟨starter, rfl⟩ | ⟨close, rfl⟩
    · exact ends.not_plain.elim
    · exact ends.not_opening.elim
    · rw [isNested_continuing] at nested
      obtain ⟨body, others, front, inner, ends⟩ := exists_passage_of_nested ls nested
      have shorter : others.length ≤ ls.length := by rw [front, List.length_append]; omega
      obtain ⟨more, close, rest, back, left⟩ := exists_alternatives_of_nested others inner ends
      refine ⟨.branch starter body more, close, rest, ?_, left⟩
      rw [front, back]
      simp [Alternatives.lines]
    · rw [isNested_closing] at nested
      exact ⟨.none, close, ls, rfl, nested⟩
termination_by ls.length
decreasing_by all_goals simp only [List.length_cons]; omega

end

/-- Properly nested lines are those of a passage. -/
theorem isNested_iff (ls : List (List Char)) :
    isNested 0 ls = true ↔ ∃ p : Passage, p.lines = ls := by
  constructor
  · intro nested
    obtain ⟨p, rest, rfl, left, ends⟩ := exists_passage_of_nested ls nested
    cases rest with
    | nil => exact ⟨p, (List.append_nil _).symm⟩
    | cons line rest =>
      obtain ⟨d, outside, condition, reads⟩ := ends line rfl
      rw [isNested, reads] at left
      simp only [continuing, closing, List.cons_append, List.nil_append, List.mem_cons,
        List.not_mem_nil, or_false] at outside
      rcases outside with rfl | rfl | rfl <;> cases left
  · rintro ⟨p, rfl⟩
    rw [← List.append_nil p.lines, p.isNested_lines]
    rfl

/-- Properly nested lines, whatever they are, make up a passage, and of a passage the scan keeps the
plain lines of the branches that may be taken, judged in turn. -/
theorem activeLines_eq_live :
    (∀ ls : List (List Char), isNested 0 ls = true ↔ ∃ p : Passage, p.lines = ls) ∧
      ∀ p : Passage, activeLines p.lines = p.live := by
  refine ⟨isNested_iff, fun p => ?_⟩
  have kept := activeFrom_lines p [] []
  rw [List.append_nil] at kept
  rw [activeLines, kept]
  exact List.append_nil _

end ConstLookup.Include
