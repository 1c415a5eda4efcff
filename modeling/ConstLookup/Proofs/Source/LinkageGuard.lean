import ConstLookup.Proofs.Expr.Spelling
import ConstLookup.Proofs.Source.Linkage

/-!
  The guard of a line. The conditionals of a source are read line by line into the branches that a
  line stands in (`branches?`). The one guard that a state knows is the outermost of them whose
  conditional counts as one that asks for C++ (`stateOf`), and every line keeps it so
  (`State.next_stateOf`). So it is known for every line of a properly nested source whether it is
  changed (`changed_iff`).
-/

namespace ConstLookup.Linkage

open ConstLookup.Text

/-! ## Lines of conditionals -/

/-- What a line does to the conditionals around it. -/
inductive Kind where
  | plain
  /-- Opens a conditional. `negated` is there if its condition is whether `__cplusplus` is defined
  or, negated, is not; `reads` is there if the line counts as one that asks for C++, with whether
  its first branch counts as one for C++. -/
  | opens (negated reads : Option Bool)
  | elseIf
  | otherwise
  | closes

/-- The name after the word of a directive is `__cplusplus`. -/
def namesCpp (rest : List Char) : Bool :=
  (afterWord? "__cplusplus" (rest.dropWhile isBlank)).isSome

/-- Whether the first branch counts as one for C++, for a line that asks for it. -/
def reading? (text directive : List Char) : Option Bool :=
  if asksForCpp text then
    some !("ifndef".toList.isPrefixOf directive || directive.contains '!')
  else none

/-- What a line with the directive does. No directive has a word that only begins like that of a
conditional. -/
def directiveKind? (text directive : List Char) : Option Kind :=
  let word := String.ofList (directive.takeWhile isWord)
  let cpp := namesCpp (directive.dropWhile isWord)
  if word = "if" then some (.opens none (reading? text directive))
  else if word = "ifdef" then
    some (.opens (if cpp then some false else none) (reading? text directive))
  else if word = "ifndef" then
    some (.opens (if cpp then some true else none) (reading? text directive))
  else if word ∈ ["elif", "elifdef", "elifndef"] then some .elseIf
  else if word = "else" then some .otherwise
  else if word = "endif" then some .closes
  else if ["if", "el", "endif"].any (·.toList.isPrefixOf word.toList) then none
  else some .plain

/-- What a line does. -/
def kind? (text : List Char) : Option Kind :=
  match directive? text with
  | some directive => directiveKind? text directive
  | none => some .plain

/-! ## Branches -/

/-- A condition of a conditional. One that is not about `__cplusplus` is known by its line. -/
inductive Condition where
  | cpp (negated : Bool)
  | other (line : Nat)
  deriving DecidableEq

/-- The branch of a conditional that a line stands in. -/
structure Branch where
  /-- The condition of the line that opens the conditional. -/
  opening : Condition
  /-- How that line counts. -/
  reads : Option Bool
  /-- The lines of its further conditions, latest first. -/
  elifs : List Nat
  /-- The branch is the one without a condition. -/
  otherwise : Bool
  deriving DecidableEq

namespace Branch

/-- The branch counts as one for C++, where its conditional counts as one that asks for it. -/
def counts (b : Branch) : Bool :=
  match b.otherwise, b.elifs, b.reads with
  | false, [], some first => first
  | true, [], some first => !first
  | true, _ :: _, some _ => true
  | _, _, _ => false

/-- The branches under further conditions do not count. -/
theorem counts_elseIf {b : Branch} (h : b.otherwise = false) (line : Nat) :
    { b with elifs := line :: b.elifs }.counts = false := by
  rw [counts, h]

/-- The last branch counts if the one before it does not. -/
theorem counts_otherwise {b : Branch} (h : b.otherwise = false) (asks : b.reads.isSome = true) :
    { b with otherwise := true }.counts = !b.counts := by
  obtain ⟨first, reads⟩ := Option.isSome_iff_exists.mp asks
  rw [counts, counts, h, reads]
  cases b.elifs <;> rfl

end Branch

/-- The branches after a line of the kind, innermost first. There are none if the line does not
belong to an open conditional. -/
def step? (line : Nat) (branches : List Branch) : Kind → Option (List Branch)
  | .plain => some branches
  | .opens negated reads =>
    some ({ opening := (negated.map Condition.cpp).getD (.other line), reads := reads, elifs := []
            otherwise := false } :: branches)
  | .elseIf =>
    match branches with
    | b :: outer => if b.otherwise then none else some ({ b with elifs := line :: b.elifs } :: outer)
    | [] => none
  | .otherwise =>
    match branches with
    | b :: outer => if b.otherwise then none else some ({ b with otherwise := true } :: outer)
    | [] => none
  | .closes => branches.tail?

/-- The branches after lines, if these are properly nested. -/
def branchesFrom? (line : Nat) (branches : List Branch) : List (List Char) → Option (List Branch)
  | [] => some branches
  | l :: ls =>
    ((kind? (content l)).bind (step? line branches)).bind fun next =>
      branchesFrom? (line + 1) next ls

/-- The branches that the line after the given ones stands in, innermost first. -/
def branches? (ls : List (List Char)) : Option (List Branch) := branchesFrom? 0 [] ls

/-- The outermost branch whose conditional counts as one that asks for C++. -/
def guarding? (branches : List Branch) : Option Branch :=
  branches.reverse.find? fun b => b.reads.isSome

/-- What a line does to the branches around it. -/
inductive Stepped (line : Nat) : List Branch → Kind → List Branch → Prop where
  | plain {branches : List Branch} : Stepped line branches .plain branches
  | opens {branches : List Branch} {negated reads : Option Bool} :
      Stepped line branches (.opens negated reads)
        (⟨(negated.map Condition.cpp).getD (.other line), reads, [], false⟩ :: branches)
  | elseIf {b : Branch} {outer : List Branch} (goesOn : b.otherwise = false) :
      Stepped line (b :: outer) .elseIf ({ b with elifs := line :: b.elifs } :: outer)
  | otherwise {b : Branch} {outer : List Branch} (goesOn : b.otherwise = false) :
      Stepped line (b :: outer) .otherwise ({ b with otherwise := true } :: outer)
  | closes {b : Branch} {outer : List Branch} : Stepped line (b :: outer) .closes outer

theorem stepped_of_step? {line : Nat} {branches next : List Branch} {k : Kind}
    (h : step? line branches k = some next) : Stepped line branches k next := by
  cases k with
  | plain =>
    obtain rfl := Option.some.inj h
    exact .plain
  | opens negated reads =>
    obtain rfl := Option.some.inj h
    exact .opens
  | elseIf =>
    cases branches with
    | nil => cases h
    | cons b outer =>
      simp only [step?, Option.ite_none_left_eq_some, Option.some.injEq] at h
      obtain ⟨goesOn, rfl⟩ := h
      exact .elseIf (Bool.not_eq_true _ ▸ goesOn)
  | otherwise =>
    cases branches with
    | nil => cases h
    | cons b outer =>
      simp only [step?, Option.ite_none_left_eq_some, Option.some.injEq] at h
      obtain ⟨goesOn, rfl⟩ := h
      exact .otherwise (Bool.not_eq_true _ ▸ goesOn)
  | closes =>
    cases branches with
    | nil => cases h
    | cons b outer =>
      obtain rfl := Option.some.inj h
      exact .closes

/-- The first of properly nested lines is a step, and the others start from what it leads to. -/
theorem exists_of_branchesFrom? {line : Nat} {branches next : List Branch} {l : List Char}
    {ls : List (List Char)} (h : branchesFrom? line branches (l :: ls) = some next) :
    ∃ k middle, kind? (content l) = some k ∧ Stepped line branches k middle ∧
      branchesFrom? (line + 1) middle ls = some next := by
  obtain ⟨middle, step, rest⟩ := Option.bind_eq_some_iff.mp h
  obtain ⟨k, kind, step⟩ := Option.bind_eq_some_iff.mp step
  exact ⟨k, middle, kind, stepped_of_step? step, rest⟩

/-- The line of this number is changed. -/
def Changed (cs : List Char) (i : Nat) : Prop := (lines (strip cs))[i]? ≠ (lines cs)[i]?

/-! ## The guard -/

/-- The state that the branches of a line make. -/
def stateOf (branches : List Branch) : State where
  depth := branches.length
  guard := guardOf branches
where
  guardOf : List Branch → Option Guard
    | [] => none
    | b :: outer =>
      (guardOf outer).or (b.reads.map fun _ => { depth := outer.length + 1, isCpp := b.counts })

theorem guarding?_cons (b : Branch) (outer : List Branch) :
    guarding? (b :: outer) = (guarding? outer).or (if b.reads.isSome then some b else none) := by
  rw [guarding?, List.reverse_cons, List.find?_append, ← guarding?, List.find?_singleton]

theorem stateOf_counts (branches : List Branch) :
    (stateOf branches).guard.map Guard.isCpp = (guarding? branches).map Branch.counts := by
  change (stateOf.guardOf branches).map Guard.isCpp = _
  induction branches with
  | nil => rfl
  | cons b outer ih =>
    rw [stateOf.guardOf, guarding?_cons, Option.map_or, Option.map_or, ih]
    cases b.reads <;> rfl

theorem depth_le_of_guardOf {branches : List Branch} {g : Guard}
    (h : stateOf.guardOf branches = some g) : g.depth ≤ branches.length := by
  induction branches with
  | nil => cases h
  | cons b outer ih =>
    rw [stateOf.guardOf, Option.or_eq_some_iff] at h
    rcases h with inner | ⟨-, own⟩
    · exact Nat.le_succ_of_le (ih inner)
    · obtain ⟨-, -, rfl⟩ := Option.map_eq_some_iff.mp own
      exact le_refl _

section Top

variable {b b' : Branch} {outer : List Branch}

/-- A guard around the innermost branch is not the guard of that branch. -/
theorem depth_ne_of_guardOf {g : Guard} (h : stateOf.guardOf outer = some g) (b : Branch) :
    g.depth ≠ (b :: outer).length := by
  have below := depth_le_of_guardOf h
  rw [List.length_cons]
  omega

/-- A change of the innermost branch changes the guard only if it belongs to that branch. -/
theorem guardOf_change {last : Bool} (reads : b'.reads = b.reads)
    (counts : b.reads.isSome → b'.counts = (last && !b.counts)) :
    (stateOf.guardOf (b :: outer)).map (fun g =>
        if g.depth = (b :: outer).length then { g with isCpp := last && !g.isCpp } else g) =
      stateOf.guardOf (b' :: outer) := by
  rw [stateOf.guardOf, stateOf.guardOf, reads]
  cases found : stateOf.guardOf outer with
  | some g =>
    rw [Option.some_or, Option.some_or, Option.map_some, if_neg (depth_ne_of_guardOf found b)]
  | none =>
    rw [Option.none_or, Option.none_or]
    cases own : b.reads with
    | none => rfl
    | some first =>
      rw [Option.map_some, Option.map_some, Option.map_some, counts (by rw [own]; rfl)]
      exact congrArg some (if_pos rfl)

/-- The guard of the innermost branch ends with it. -/
theorem guardOf_close (b : Branch) (outer : List Branch) :
    (stateOf.guardOf (b :: outer)).filter (fun g => g.depth ≠ (b :: outer).length) =
      stateOf.guardOf outer := by
  rw [stateOf.guardOf]
  cases found : stateOf.guardOf outer with
  | some g =>
    have other := depth_ne_of_guardOf found b
    rw [Option.some_or, Option.filter_some, if_pos (by simpa using other)]
  | none =>
    rw [Option.none_or]
    cases b.reads with
    | none => rfl
    | some first => simp

end Top

/-- A word begins a directive exactly if it begins the word of the directive. -/
theorem starts_eq {word : List Char} (h : word.all isWord = true) (directive : List Char) :
    word.isPrefixOf directive = word.isPrefixOf (directive.takeWhile isWord) := by
  conv_lhs => rw [← List.takeWhile_append_dropWhile (p := isWord) (l := directive)]
  refine isPrefixOf_append (fun c hc mem => ?_) _
  have stops := head_dropWhile isWord directive c hc
  exact absurd (List.all_eq_true.mp h c mem) (by rw [stops]; decide)

/-- How the directive of a line begins. -/
structure Begins (directive : List Char) (opens alternative last closes : Bool) : Prop where
  opens : "if".toList.isPrefixOf directive = opens
  alternative : "el".toList.isPrefixOf directive = alternative
  last : "else".toList.isPrefixOf directive = last
  closes : "endif".toList.isPrefixOf directive = closes

theorem begins_of_word {directive : List Char} {word : String}
    (h : String.ofList (directive.takeWhile isWord) = word) :
    Begins directive ("if".toList.isPrefixOf word.toList) ("el".toList.isPrefixOf word.toList)
      ("else".toList.isPrefixOf word.toList) ("endif".toList.isPrefixOf word.toList) := by
  have text : directive.takeWhile isWord = word.toList := by rw [← h, String.toList_ofList]
  rw [← text]
  constructor <;> exact starts_eq (by decide) directive

/-- A last branch is one of the further ones. -/
theorem not_last {word : List Char} (h : "el".toList.isPrefixOf word = false) :
    "else".toList.isPrefixOf word = false := by
  by_contra front
  rw [Bool.not_eq_false, List.isPrefixOf_iff_prefix] at front
  have shorter : "el".toList <+: "else".toList := by decide
  have front := List.isPrefixOf_iff_prefix.mpr (shorter.trans front)
  rw [h] at front
  cases front

section Kinds

variable {text directive : List Char}

/-- What the kind of a line says about its directive. -/
theorem directiveKind?_cases {k : Kind} (h : directiveKind? text directive = some k) :
    match k with
    | .plain => Begins directive false false false false
    | .opens _ reads => Begins directive true false false false ∧ reads = reading? text directive
    | .elseIf => Begins directive false true false false
    | .otherwise => Begins directive false true true false
    | .closes => Begins directive false false false true := by
  have begins := begins_of_word (rfl : String.ofList (directive.takeWhile isWord) = _)
  rw [directiveKind?] at h
  generalize String.ofList (directive.takeWhile isWord) = word at h begins
  split at h
  next same =>
    subst same
    cases h
    exact ⟨begins, rfl⟩
  split at h
  next same =>
    subst same
    cases h
    exact ⟨begins, rfl⟩
  split at h
  next same =>
    subst same
    cases h
    exact ⟨begins, rfl⟩
  split at h
  next same =>
    cases h
    simp only [List.mem_cons, List.not_mem_nil, or_false] at same
    rcases same with rfl | rfl | rfl <;> exact begins
  split at h
  next same =>
    subst same
    cases h
    exact begins
  split at h
  next same =>
    subst same
    cases h
    exact begins
  split at h
  next => cases h
  next other =>
    cases h
    simp only [List.any_cons, List.any_nil, Bool.or_false, Bool.or_eq_true, not_or,
      Bool.not_eq_true] at other
    obtain ⟨opens, alternative, closes⟩ := other
    rw [opens, alternative, not_last alternative, closes] at begins
    exact begins

section After

variable (s : State)

theorem State.after_plain (h : Begins directive false false false false) :
    s.after text directive = s := by
  rw [State.after]
  simp only [h.opens, h.alternative, h.closes, Bool.false_eq_true, if_false]

theorem State.after_opens (h : Begins directive true false false false) :
    s.after text directive =
      { depth := s.depth + 1
        guard := s.guard.or ((reading? text directive).map fun first => ⟨s.depth + 1, first⟩) } := by
  rw [State.after]
  dsimp only
  rw [if_pos h.opens, reading?]
  cases s.guard with
  | some g => rfl
  | none => cases asksForCpp text <;> rfl

theorem State.after_alternative {last : Bool} (h : Begins directive false true last false) :
    s.after text directive =
      { depth := s.depth
        guard := s.guard.map fun g =>
          if g.depth = s.depth then { g with isCpp := last && !g.isCpp } else g } := by
  rw [State.after]
  simp only [h.opens, h.alternative, h.last, Bool.false_eq_true, if_false, if_true]

theorem State.after_closes (h : Begins directive false false false true) :
    s.after text directive =
      { depth := s.depth - 1, guard := s.guard.filter fun g => g.depth ≠ s.depth } := by
  rw [State.after]
  simp only [h.opens, h.alternative, h.closes, Bool.false_eq_true, if_false, if_true]

/-- The state after a line. -/
def State.next (text : List Char) : State :=
  match directive? text with
  | some directive => s.after text directive
  | none => s

theorem State.strip_snd (line : List Char) : (s.strip line).2 = s.next (content line) := by
  rw [State.strip, State.next]
  cases directive? (content line) <;> rfl

end After

/-- A line leads from the state of the branches before it to that of the branches after it. -/
theorem State.next_stateOf {line : Nat} {k : Kind} {branches next : List Branch}
    (kind : kind? text = some k) (stepped : Stepped line branches k next) :
    (stateOf branches).next text = stateOf next := by
  rw [kind?] at kind
  rw [State.next]
  cases found : directive? text with
  | none =>
    rw [found] at kind
    cases kind
    cases stepped
    rfl
  | some directive =>
    rw [found] at kind
    have begins := directiveKind?_cases kind
    dsimp only
    cases stepped with
    | plain => exact State.after_plain _ begins
    | opens =>
      obtain ⟨begins, rfl⟩ := begins
      rw [State.after_opens _ begins]
      refine congrArg (State.mk _) (congrArg (Option.or _) ?_)
      cases reading? text directive <;> rfl
    | elseIf goesOn =>
      rw [State.after_alternative _ begins]
      exact congrArg (State.mk _)
        (guardOf_change rfl fun _ => Branch.counts_elseIf goesOn line)
    | otherwise goesOn =>
      rw [State.after_alternative _ begins]
      exact congrArg (State.mk _) (guardOf_change rfl (Branch.counts_otherwise goesOn))
    | closes =>
      rw [State.after_closes _ begins]
      exact congrArg (State.mk _) (guardOf_close _ _)

end Kinds

/-! ## Changed lines -/

/-- The state after lines. -/
def State.run (s : State) (ls : List (List Char)) : State :=
  ls.foldl (fun s line => s.next (content line)) s

theorem getElem?_stripLines (s : State) (ls : List (List Char)) (i : Nat) :
    (stripLines s ls)[i]? = ls[i]?.map fun line => ((s.run (ls.take i)).strip line).1 := by
  induction ls generalizing s i with
  | nil => rfl
  | cons line rest ih =>
    rw [stripLines_cons]
    cases i with
    | zero => rfl
    | succ i =>
      rw [List.getElem?_cons_succ, List.getElem?_cons_succ, List.take_succ_cons, ih,
        State.strip_snd]
      rfl

theorem branchesFrom?_append (line : Nat) (branches : List Branch) (front rest : List (List Char)) :
    branchesFrom? line branches (front ++ rest) =
      (branchesFrom? line branches front).bind fun next =>
        branchesFrom? (line + front.length) next rest := by
  induction front generalizing line branches with
  | nil => rfl
  | cons l front ih =>
    rw [List.cons_append, branchesFrom?, branchesFrom?]
    cases (kind? (content l)).bind (step? line branches) with
    | none => rfl
    | some next =>
      rw [Option.bind_some, Option.bind_some, ih, List.length_cons, Nat.add_right_comm,
        Nat.add_assoc line]

/-- Properly nested lines lead to the state of the branches after them. -/
theorem State.run_stateOf {line : Nat} {branches next : List Branch} {ls : List (List Char)}
    (h : branchesFrom? line branches ls = some next) : (stateOf branches).run ls = stateOf next := by
  induction ls generalizing line branches with
  | nil =>
    cases h
    rfl
  | cons l ls ih =>
    obtain ⟨k, middle, kind, stepped, rest⟩ := exists_of_branchesFrom? h
    rw [State.run, List.foldl_cons, State.next_stateOf kind stepped]
    exact ih rest

section Changes

variable {cs : List Char} {i : Nat} {line : List Char} {branches : List Branch}

/-- What is changed of a line is that of a brace. -/
theorem State.strip_ne_iff (s : State) (h : '\n' ∉ content line) :
    (s.strip line).1 ≠ line ↔ directive? (content line) = none ∧ isBrace (content line) = true ∧
      (s.guard.map Guard.isCpp).getD false = true := by
  rw [State.strip]
  cases directive? (content line) with
  | some directive => simp
  | none =>
    dsimp only
    rw [← Bool.and_eq_true_iff, Bool.and_comm]
    by_cases hides : (isBrace (content line) && (s.guard.map Guard.isCpp).getD false) = true
    · rw [if_pos hides]
      refine ⟨fun _ => ⟨rfl, hides⟩, fun _ same => ?_⟩
      -- a blank line holds no brace
      have none := isBrace_blanks (blank_eq_space h)
      rw [← content_blank, same, (Bool.and_eq_true_iff.mp hides).1] at none
      cases none
    · rw [if_neg hides]
      exact ⟨fun differ => absurd rfl differ, fun brace => absurd brace.2 hides⟩

/-- A line is changed if it holds a linkage brace and the guard's branch counts as one for C++. -/
theorem changed_iff (at' : (lines cs)[i]? = some line)
    (before : branches? ((lines cs).take i) = some branches) :
    Changed cs i ↔ directive? (content line) = none ∧ isBrace (content line) = true ∧
      ∃ g, guarding? branches = some g ∧ g.counts = true := by
  have whole := isLines_lines cs
  have after : lines (strip cs) = stripLines {} (lines cs) :=
    (isLines_stripLines whole {}).lines_flatten
  have noNewline := noNewline_of_isLines whole line (List.mem_of_getElem? at')
  have state : State.run {} ((lines cs).take i) = stateOf branches := State.run_stateOf before
  have counts : ((stateOf branches).guard.map Guard.isCpp).getD false = true ↔
      ∃ g, guarding? branches = some g ∧ g.counts = true := by
    rw [stateOf_counts]
    cases guarding? branches <;> simp
  rw [Changed, after, getElem?_stripLines, at', Option.map_some, state, ne_eq, Option.some.injEq,
    ← ne_eq, State.strip_ne_iff _ noNewline, counts]

end Changes

end ConstLookup.Linkage
