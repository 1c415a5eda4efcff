import ConstLookup.Proofs.Source.Commands
import ConstLookup.Proofs.Source.LinkageGuard

/-!
  Branches compiled only in C++. Whether the branches around a line are taken together is decided by
  the conditions of their chains; they are taken only in C++ exactly if the place of one of them
  asks for it (`onlyCpp_iff`). The guard of a line gets this right for every place in a chain but
  one, the `#else` of `#ifdef __cplusplus` after an `#elif` (`Branch.needsCpp_of_counts`), so all
  other lines that are changed are compiled only in C++ (`strip_branches`).
-/

namespace ConstLookup.Linkage

open ConstLookup.Text

/-! ## Conditions -/

/-- What a source is compiled with: whether `__cplusplus` is defined, and the truth of the other
conditions. -/
structure Setting where
  cpp : Bool
  holds : Nat → Bool

def Setting.meets (v : Setting) : Condition → Bool
  | .cpp negated => v.cpp != negated
  | .other line => v.holds line

/-- The line of a condition that is not about `__cplusplus`. -/
def Condition.line? : Condition → Option Nat
  | .cpp _ => none
  | .other line => some line

namespace Branch

/-- The conditions of the chain up to the branch, latest first. -/
def conditions (b : Branch) : List Condition := b.elifs.map .other ++ [b.opening]

/-- The conditions of the branches before this one. -/
def failed (b : Branch) : List Condition :=
  if b.otherwise then b.conditions else b.conditions.tail

/-- The condition of the branch. -/
def own? (b : Branch) : Option Condition :=
  if b.otherwise then none else b.conditions.head?

/-- The branch is taken, if its conditional is: no condition before its own holds. -/
def Taken (v : Setting) (b : Branch) : Prop :=
  (∀ c ∈ b.failed, v.meets c = false) ∧ ∀ c ∈ b.own?, v.meets c = true

/-- The branch is that of `#ifdef __cplusplus`, or comes after that of `#ifndef __cplusplus`. -/
def NeedsCpp (b : Branch) : Prop := b.own? = some (.cpp false) ∨ .cpp true ∈ b.failed

/-- The branch is the last one, after further conditions, of `#ifdef __cplusplus`. -/
def Leftover (b : Branch) : Prop :=
  b.opening = .cpp false ∧ b.otherwise = true ∧ b.elifs ≠ []

/-- A line that counts as one that asks for C++ does, and counts as what it asks. -/
def Faithful (b : Branch) : Prop := ∀ first ∈ b.reads, b.opening = .cpp !first

/-- The lines of the conditions that are not about `__cplusplus`. -/
def others (b : Branch) : List Nat := b.conditions.filterMap Condition.line?

end Branch

/-- No setting takes all the branches without `__cplusplus`. -/
def OnlyCpp (branches : List Branch) : Prop :=
  ∀ v : Setting, (∀ b ∈ branches, b.Taken v) → v.cpp = true

/-! ## Branches taken only in C++ -/

namespace Branch

variable {b : Branch} {v : Setting}

theorem mem_failed {c : Condition} (h : c ∈ b.failed) : c ∈ b.conditions := by
  rw [failed] at h
  split at h
  · exact h
  · exact List.mem_of_mem_tail h

theorem mem_own? {c : Condition} (h : c ∈ b.own?) : c ∈ b.conditions := by
  rw [own?] at h
  split at h
  · cases h
  · exact List.mem_of_head? h

/-- The place of a branch that needs C++ leaves it untaken without. -/
theorem NeedsCpp.cpp (needs : b.NeedsCpp) (taken : b.Taken v) : v.cpp = true := by
  rcases needs with own | before
  · simpa [Setting.meets] using taken.2 _ own
  · simpa [Setting.meets] using taken.1 _ before

/-- Whether a branch is taken depends on its own conditions. -/
theorem Taken.congr {cpp : Bool} {holds holds' : Nat → Bool} (taken : b.Taken ⟨cpp, holds⟩)
    (h : ∀ i ∈ b.others, holds i = holds' i) : b.Taken ⟨cpp, holds'⟩ := by
  have same {c : Condition} (mem : c ∈ b.conditions) :
      Setting.meets ⟨cpp, holds⟩ c = Setting.meets ⟨cpp, holds'⟩ c := by
    cases c with
    | cpp negated => rfl
    | other i => exact h i (List.mem_filterMap.mpr ⟨_, mem, rfl⟩)
  exact ⟨fun c mem => same (mem_failed mem) ▸ taken.1 c mem,
    fun c mem => same (mem_own? mem) ▸ taken.2 c mem⟩

/-- A condition that is one of the branch's own is not also one before it. -/
theorem not_mem_failed (distinct : b.others.Nodup) {i : Nat} (own : b.own? = some (.other i)) :
    .other i ∉ b.failed := by
  rw [own?] at own
  rw [failed]
  split at own
  next => cases own
  next first =>
    rw [if_neg first]
    obtain ⟨rest, whole⟩ := List.head?_eq_some_iff.mp own
    rw [others, whole] at distinct
    rw [whole, List.tail_cons]
    intro mem
    exact (List.nodup_cons.mp distinct).1 (List.mem_filterMap.mpr ⟨_, mem, rfl⟩)

/-- A branch that does not need C++ is taken without it, if its own condition holds and the others
do not. -/
theorem exists_taken (distinct : b.others.Nodup) (free : ¬ b.NeedsCpp) :
    ∃ holds, b.Taken ⟨false, holds⟩ := by
  obtain ⟨own, before⟩ := not_or.mp free
  refine ⟨fun i => b.own? = some (.other i), fun c mem => ?_, fun c mem => ?_⟩
  · cases c with
    | cpp negated =>
      cases negated with
      | false => rfl
      | true => exact absurd mem before
    | other i => exact decide_eq_false fun itself => not_mem_failed distinct itself mem
  · cases c with
    | cpp negated =>
      cases negated with
      | false => exact absurd mem own
      | true => rfl
    | other i => exact decide_eq_true mem

/-- Where the line that opens the conditional counts as what it is, a branch that counts as one for
C++ needs C++, but for the last one of `#ifdef __cplusplus` after further conditions. -/
theorem needsCpp_of_counts (faithful : b.Faithful) (counted : b.counts = true) :
    b.NeedsCpp ∨ b.Leftover := by
  obtain ⟨opening, reads, elifs, otherwise⟩ := b
  cases reads with
  | none => cases otherwise <;> cases elifs <;> cases counted
  | some first =>
    obtain rfl : opening = .cpp !first := faithful first rfl
    cases otherwise with
    | false =>
      cases elifs with
      | cons line earlier => cases counted
      | nil =>
        obtain rfl : first = true := counted
        exact .inl (.inl rfl)
    | true =>
      cases first with
      | false => exact .inl (.inr (List.mem_append_right _ List.mem_cons_self))
      | true =>
        cases elifs with
        | nil => cases counted
        | cons line earlier => exact .inr ⟨rfl, rfl, List.cons_ne_nil _ _⟩

end Branch

section Settings

variable {line : Nat} {branches next : List Branch}

/-- The conditions of the branches are on different lines, all before this one. -/
def Distinct (line : Nat) (branches : List Branch) : Prop :=
  (branches.flatMap Branch.others).Nodup ∧ ∀ i ∈ branches.flatMap Branch.others, i < line

theorem Distinct.of_sublist (h : Distinct line branches)
    (fewer : (next.flatMap Branch.others).Sublist (branches.flatMap Branch.others)) :
    Distinct (line + 1) next :=
  ⟨h.1.sublist fewer, fun i mem => Nat.lt_succ_of_lt (h.2 i (fewer.subset mem))⟩

theorem Distinct.of_cons (h : Distinct line branches)
    (added : next.flatMap Branch.others = line :: branches.flatMap Branch.others) :
    Distinct (line + 1) next := by
  rw [Distinct, added]
  refine ⟨List.nodup_cons.mpr ⟨fun mem => lt_irrefl line (h.2 line mem), h.1⟩, ?_⟩
  exact List.forall_mem_cons.mpr
    ⟨Nat.lt_succ_self line, fun i mem => Nat.lt_succ_of_lt (h.2 i mem)⟩

/-- A line brings in its own condition at most. -/
theorem Distinct.step {k : Kind} (h : Distinct line branches)
    (stepped : Stepped line branches k next) : Distinct (line + 1) next := by
  cases stepped with
  | plain => exact h.of_sublist (List.Sublist.refl _)
  | @opens _ negated =>
    cases negated with
    | none => exact h.of_cons rfl
    | some negated => exact h.of_sublist (List.Sublist.refl _)
  | elseIf => exact h.of_cons rfl
  | otherwise => exact h.of_sublist (List.Sublist.refl _)
  | closes => exact h.of_sublist (List.sublist_append_right _ _)

theorem Distinct.run {ls : List (List Char)} (h : Distinct line branches)
    (run : branchesFrom? line branches ls = some next) :
    (next.flatMap Branch.others).Nodup := by
  induction ls generalizing line branches with
  | nil =>
    cases run
    exact h.1
  | cons l ls ih =>
    obtain ⟨k, middle, -, stepped, rest⟩ := exists_of_branchesFrom? run
    exact ih (h.step stepped) rest

/-- Branches that do not need C++ are taken together without it. -/
theorem exists_taken_all (distinct : (branches.flatMap Branch.others).Nodup)
    (free : ∀ b ∈ branches, ¬ b.NeedsCpp) :
    ∃ holds, ∀ b ∈ branches, b.Taken ⟨false, holds⟩ := by
  induction branches with
  | nil => exact ⟨fun _ => false, nofun⟩
  | cons b outer ih =>
    rw [List.flatMap_cons, List.nodup_append] at distinct
    obtain ⟨own, rest, apart⟩ := distinct
    obtain ⟨inner, others⟩ := List.forall_mem_cons.mp free
    obtain ⟨holds, taken⟩ := Branch.exists_taken own inner
    obtain ⟨holds', all⟩ := ih rest others
    refine ⟨fun i => if i ∈ b.others then holds i else holds' i,
      List.forall_mem_cons.mpr ⟨?_, fun b' mem => ?_⟩⟩
    · exact taken.congr fun i mem => (if_pos mem).symm
    · refine (all b' mem).congr fun i has => (if_neg fun mine => ?_).symm
      exact apart i mine i (List.mem_flatMap.mpr ⟨b', mem, has⟩) rfl

/-- Branches are taken only in C++ exactly if one of them needs it. -/
theorem onlyCpp_iff (distinct : (branches.flatMap Branch.others).Nodup) :
    OnlyCpp branches ↔ ∃ b ∈ branches, b.NeedsCpp := by
  constructor
  · intro only
    by_contra none
    obtain ⟨holds, taken⟩ := exists_taken_all distinct fun b mem needs => none ⟨b, mem, needs⟩
    exact absurd (only _ taken) Bool.false_ne_true
  · rintro ⟨b, mem, needs⟩ v taken
    exact needs.cpp (taken b mem)

end Settings

/-! ## Guards -/

/-- The word of a line that opens a guard. -/
def guardWord (negated : Bool) : String := if negated then "ifndef" else "ifdef"

/-- The text is the line `#ifdef __cplusplus` or, negated, `#ifndef __cplusplus`, perhaps with more
behind it, but no `!`. -/
inductive IsGuard (negated : Bool) : List Char → Prop where
  | line {lead gap apart trail : List Char}
      (blank : ∀ c ∈ lead ++ (gap ++ apart), isLineBlank c = true) (nonempty : apart ≠ [])
      (ends : ∀ c ∈ trail.head?, isWord c = false) (plain : '!' ∉ trail) :
      IsGuard negated (lead ++ '#' :: (gap ++ ((guardWord negated).toList ++
        (apart ++ ("__cplusplus".toList ++ trail)))))

/-- No conditional that counts as one that asks for C++ is opened but by such a line. -/
def OnlyGuards (ls : List (List Char)) : Prop :=
  ∀ line ∈ ls, asksForCpp (content line) = true → ∃ negated, IsGuard negated (content line)

section Guards

variable {text : List Char} {negated : Bool}

theorem isBlank_of_isLineBlank {c : Char} (h : isLineBlank c = true) : isBlank c = true := by
  rw [isLineBlank, Bool.or_eq_true, decide_eq_true_eq, decide_eq_true_eq] at h
  rcases h with rfl | rfl <;> decide

/-- The word of the directive of a line, and what is behind it. -/
theorem directive?_word {lead gap rest : List Char} {word : String}
    (blank : ∀ c ∈ lead ++ gap, isLineBlank c = true) (whole : word.toList.all isWord = true)
    (nonempty : word.toList ≠ []) (ends : ∀ c ∈ rest.head?, isWord c = false) :
    directive? (lead ++ '#' :: (gap ++ (word.toList ++ rest))) = some (word.toList ++ rest) ∧
      (word.toList ++ rest).takeWhile isWord = word.toList ∧
      (word.toList ++ rest).dropWhile isWord = rest := by
  obtain ⟨before, between⟩ := List.forall_mem_append.mp blank
  have letters := List.all_eq_true.mp whole
  have start : ∀ c ∈ (word.toList ++ rest).head?, isBlank c = false := by
    obtain ⟨c, cs, text⟩ := List.exists_cons_of_ne_nil nonempty
    rw [text]
    rintro _ ⟨⟩
    by_contra blank
    rw [Bool.not_eq_false] at blank
    have letter := letters c (by simp [text])
    rw [Source.isWord_of_isBlank blank] at letter
    cases letter
  have sign : (lead ++ '#' :: (gap ++ (word.toList ++ rest))).dropWhile isBlank =
      '#' :: (gap ++ (word.toList ++ rest)) :=
    dropWhile_run (fun c hc => isBlank_of_isLineBlank (before c hc))
      fun c hc => by cases hc; decide
  have found : (gap ++ (word.toList ++ rest)).dropWhile isBlank = word.toList ++ rest :=
    dropWhile_run (fun c hc => isBlank_of_isLineBlank (between c hc)) start
  rw [directive?, sign, takeWhile_run letters ends]
  exact ⟨congrArg some found, rfl, dropWhile_run letters ends⟩

/-- A directive with the word of a guard opens one if the name behind it is that of C++. -/
theorem directiveKind?_guard {directive rest : List Char}
    (word : directive.takeWhile isWord = (guardWord negated).toList)
    (more : directive.dropWhile isWord = rest) (named : namesCpp rest = true) :
    directiveKind? text directive = some (.opens (some negated) (reading? text directive)) := by
  rw [directiveKind?, word, more, named, String.ofList_toList]
  cases negated <;> rfl

theorem namesCpp_append {apart trail : List Char} (blank : ∀ c ∈ apart, isLineBlank c = true)
    (ends : ∀ c ∈ trail.head?, isWord c = false) :
    namesCpp (apart ++ ("__cplusplus".toList ++ trail)) = true := by
  have trimmed : (apart ++ ("__cplusplus".toList ++ trail)).dropWhile isBlank =
      "__cplusplus".toList ++ trail :=
    dropWhile_run (fun c hc => isBlank_of_isLineBlank (blank c hc))
      fun c hc => by cases hc; decide
  rw [namesCpp, trimmed, afterWord?_eq_some_iff.mpr ⟨rfl, ends⟩]
  rfl

/-- The directive of a guard's line. -/
theorem IsGuard.directive (h : IsGuard negated text) :
    ∃ directive, directive? text = some directive ∧
      directive.takeWhile isWord = (guardWord negated).toList ∧
      namesCpp (directive.dropWhile isWord) = true ∧ '!' ∉ directive := by
  obtain @⟨lead, gap, apart, trail, blank, nonempty, ends, plain⟩ := h
  obtain ⟨before, blank⟩ := List.forall_mem_append.mp blank
  obtain ⟨between, behind⟩ := List.forall_mem_append.mp blank
  have stops : ∀ c ∈ (apart ++ ("__cplusplus".toList ++ trail)).head?, isWord c = false := by
    obtain ⟨c, cs, rfl⟩ := List.exists_cons_of_ne_nil nonempty
    rintro _ ⟨⟩
    exact Source.isWord_of_isBlank (isBlank_of_isLineBlank (behind c List.mem_cons_self))
  have whole : (guardWord negated).toList.all isWord = true := by cases negated <;> decide
  have letter : (guardWord negated).toList ≠ [] := by cases negated <;> decide
  obtain ⟨found, word, more⟩ :=
    directive?_word (List.forall_mem_append.mpr ⟨before, between⟩) whole letter stops
  refine ⟨_, found, word, by rw [more]; exact namesCpp_append behind ends, ?_⟩
  have letters : '!' ∉ (guardWord negated).toList := by cases negated <;> decide
  have blanks : '!' ∉ apart := fun mem => absurd (behind _ mem) (by decide)
  simp [letters, blanks, plain]

/-- The line of a guard counts as what it is. -/
theorem IsGuard.kind?_eq (h : IsGuard negated text) :
    ∃ reads, kind? text = some (.opens (some negated) reads) ∧
      ∀ first ∈ reads, first = !negated := by
  obtain ⟨directive, found, word, named, unmarked⟩ := h.directive
  refine ⟨reading? text directive, ?_, fun first mem => ?_⟩
  · rw [kind?, found]
    exact directiveKind?_guard word rfl named
  · rw [reading?, Option.mem_def, Option.ite_none_right_eq_some] at mem
    obtain ⟨-, mem⟩ := mem
    have negation : "ifndef".toList.isPrefixOf (guardWord negated).toList = negated := by
      cases negated <;> decide
    have plain : directive.contains '!' = false := by
      rw [← Bool.not_eq_true, List.contains_iff_mem]
      exact unmarked
    rw [starts_eq (by decide), word, negation, plain, Bool.or_false] at mem
    exact (Option.some.inj mem).symm

/-- A line that counts as one that asks for C++ is that of a guard. -/
theorem kind?_opens {reads negated : Option Bool}
    (guards : asksForCpp text = true → ∃ negated, IsGuard negated text)
    (kind : kind? text = some (.opens negated reads)) : ∀ first ∈ reads, negated = some !first := by
  intro first mem
  have asks : asksForCpp text = true := by
    rw [kind?] at kind
    split at kind
    next directive found =>
      obtain ⟨-, read⟩ := directiveKind?_cases kind
      rw [read, reading?, Option.mem_def, Option.ite_none_right_eq_some] at mem
      exact mem.1
    next => cases kind
  obtain ⟨_, guard⟩ := guards asks
  obtain ⟨reads', kind', same⟩ := guard.kind?_eq
  rw [kind] at kind'
  cases kind'
  rw [same first mem, Bool.not_not]

/-- All branches come from lines that count as what they are. -/
theorem faithful_branches {ls : List (List Char)} (guards : OnlyGuards ls) {line : Nat}
    {branches next : List Branch} (start : ∀ b ∈ branches, b.Faithful)
    (run : branchesFrom? line branches ls = some next) : ∀ b ∈ next, b.Faithful := by
  induction ls generalizing line branches with
  | nil =>
    cases run
    exact start
  | cons l ls ih =>
    obtain ⟨own, guards⟩ := List.forall_mem_cons.mp guards
    obtain ⟨k, middle, kind, stepped, rest⟩ := exists_of_branchesFrom? run
    refine ih guards ?_ rest
    cases stepped with
    | plain => exact start
    | opens =>
      refine List.forall_mem_cons.mpr ⟨fun first mem => ?_, start⟩
      rw [kind?_opens own kind first mem]
      rfl
    | elseIf =>
      obtain ⟨top, outer⟩ := List.forall_mem_cons.mp start
      exact List.forall_mem_cons.mpr ⟨top, outer⟩
    | otherwise =>
      obtain ⟨top, outer⟩ := List.forall_mem_cons.mp start
      exact List.forall_mem_cons.mpr ⟨top, outer⟩
    | closes => exact (List.forall_mem_cons.mp start).2

end Guards

/-- In a source with properly nested conditionals, the changed lines are those of linkage braces
where the branch of the outermost guard counts as one for C++, and a line stands in branches taken
only in C++ exactly if one of them needs it. Where the guards are the lines `#ifdef __cplusplus` and
`#ifndef __cplusplus`, a changed line is in branches taken only in C++, or else the guard's branch
is the `#else` of `#ifdef __cplusplus` after an `#elif`; no other line is changed that is compiled
without C++. -/
theorem strip_branches {cs : List Char} (nested : branches? (lines cs) = some []) {i : Nat}
    {line : List Char} (at' : (lines cs)[i]? = some line) :
    ∃ branches, branches? ((lines cs).take i) = some branches ∧
      (Changed cs i ↔ directive? (content line) = none ∧ isBrace (content line) = true ∧
        ∃ g, guarding? branches = some g ∧ g.counts = true) ∧
      (OnlyCpp branches ↔ ∃ b ∈ branches, b.NeedsCpp) ∧
      (OnlyGuards (lines cs) → Changed cs i →
        (OnlyCpp branches ∨ ∃ g, guarding? branches = some g ∧ g.Leftover) ∧
        ∀ v : Setting, v.cpp = false → (∀ b ∈ branches, b.Taken v) →
          ∃ g, guarding? branches = some g ∧ g.Leftover) := by
  obtain ⟨branches, before⟩ : ∃ branches, branches? ((lines cs).take i) = some branches := by
    rw [branches?, ← List.take_append_drop i (lines cs), branchesFrom?_append] at nested
    obtain ⟨branches, before, -⟩ := Option.bind_eq_some_iff.mp nested
    exact ⟨branches, before⟩
  have changed := changed_iff at' before
  have apart : Distinct 0 [] := ⟨List.nodup_nil, nofun⟩
  have needs : OnlyCpp branches ↔ ∃ b ∈ branches, b.NeedsCpp := onlyCpp_iff (apart.run before)
  refine ⟨branches, before, changed, needs, fun guards change => ?_⟩
  have outside : ∀ b ∈ ([] : List Branch), b.Faithful := nofun
  have faithful : ∀ b ∈ branches, b.Faithful :=
    faithful_branches (fun l mem => guards l (List.mem_of_mem_take mem)) outside before
  have either : OnlyCpp branches ∨ ∃ g, guarding? branches = some g ∧ g.Leftover := by
    obtain ⟨-, -, g, guard, counted⟩ := changed.mp change
    have mem : g ∈ branches := List.mem_reverse.mp (List.mem_of_find?_eq_some guard)
    rcases Branch.needsCpp_of_counts (faithful g mem) counted with own | leftover
    · exact .inl (needs.mpr ⟨g, mem, own⟩)
    · exact .inr ⟨g, guard, leftover⟩
  refine ⟨either, fun v without taken => ?_⟩
  rcases either with only | leftover
  · rw [only v taken] at without
    cases without
  · exact leftover

/-- A brace in the `#else` of `#ifndef __cplusplus`. -/
def alternative : List Char := "#ifndef __cplusplus\n#else\n\x7d\n#endif\n".toList

/-- The line of the brace is changed, and its branch is taken only in C++. -/
theorem strip_branches_alternative : Changed alternative 2 ∧
    ∃ branches, branches? ((lines alternative).take 2) = some branches ∧ OnlyCpp branches := by
  have nested : branches? (lines alternative) = some [] := by decide +kernel
  have brace : (lines alternative)[2]? = some "\x7d\n".toList := by decide +kernel
  have known : branches? ((lines alternative).take 2) =
      some [⟨.cpp true, some false, [], true⟩] := by decide +kernel
  obtain ⟨branches, before, changed, needs, -⟩ := strip_branches nested brace
  obtain rfl := Option.some.inj (before.symm.trans known)
  exact ⟨changed.mpr ⟨by decide +kernel, by decide +kernel, _, rfl, rfl⟩, _, before,
    needs.mpr ⟨_, List.mem_cons_self, .inr (by decide)⟩⟩

/-- A brace in the `#else` of `#ifdef __cplusplus` after an `#elif`. -/
def leftover : List Char := "#ifdef __cplusplus\n#elif X\n#else\n\x7d\n#endif\n".toList

/-- The line of the brace is changed, though its branch is taken without C++. -/
theorem leftover_changed : branches? (lines leftover) = some [] ∧ OnlyGuards (lines leftover) ∧
    Changed leftover 3 ∧ ∃ branches, branches? ((lines leftover).take 3) = some branches ∧
      ∀ b ∈ branches, b.Taken ⟨false, fun _ => false⟩ := by
  have known : branches? ((lines leftover).take 3) =
      some [⟨.cpp false, some true, [1], true⟩] := by decide +kernel
  refine ⟨by decide +kernel, ?_, by rw [Changed]; decide +kernel, _, known, ?_⟩
  · have cut : lines leftover = ["#ifdef __cplusplus\n".toList, "#elif X\n".toList,
        "#else\n".toList, "\x7d\n".toList, "#endif\n".toList] := by decide +kernel
    rw [OnlyGuards, cut]
    have others : ∀ line ∈ ["#elif X\n".toList, "#else\n".toList, "\x7d\n".toList,
        "#endif\n".toList], asksForCpp (content line) = false := by decide +kernel
    have text : [] ++ '#' :: ([] ++ ((guardWord false).toList ++
        ([' '] ++ ("__cplusplus".toList ++ [])))) = content "#ifdef __cplusplus\n".toList := by
      decide +kernel
    refine List.forall_mem_cons.mpr ⟨fun _ => ⟨false, ?_⟩, fun line mem asks => ?_⟩
    · have blank : ∀ c ∈ [' '], isLineBlank c = true := List.forall_mem_singleton.mpr rfl
      exact text ▸ @IsGuard.line false [] [] [' '] [] blank (by decide) nofun (by decide)
    · rw [others line mem] at asks
      cases asks
  · simp [Branch.Taken, Branch.failed, Branch.own?, Branch.conditions, Setting.meets]

end ConstLookup.Linkage
