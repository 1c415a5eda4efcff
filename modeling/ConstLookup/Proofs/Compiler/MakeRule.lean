import ConstLookup.Proofs.Compiler.SearchList
import ConstLookup.Proofs.Text.Blanks

/-!
  The files that a make rule lists. Joining the lines of a rule puts a blank in place of every
  continuation and leaves all else, a backslash before a blank included (`joinRule_files`); so a
  rule is read as the words of its paths as they are printed (`ruleFiles_rule`). A path is printed
  with a backslash before each of its blanks, and reading does not know that sign: the paths are
  read back exactly if there is no blank in them.
-/

namespace ConstLookup.Compiler

open ConstLookup.Text

/-! ## Printed rules -/

/-- A piece of what stands between two files of a rule: a blank, or a line that is continued. -/
inductive Gap where
  | space
  | tab
  | continued (ending : Ending)
  deriving DecidableEq

/-- The characters of a piece. -/
def Gap.chars : Gap → List Char
  | space => [' ']
  | tab => ['\t']
  | continued ending => '\\' :: ending.chars

/-- What is left of a piece when lines are joined. -/
def Gap.blank : Gap → Char
  | space => ' '
  | tab => '\t'
  | continued _ => ' '

/-- A file of a rule, with what separates it from the text before it. -/
structure Listed where
  gaps : List Gap
  path : List Char

/-- A path as it is printed: a backslash stands before each blank. -/
def escaped (path : List Char) : List Char :=
  path.flatMap fun c => if isLineBlank c then ['\\', c] else [c]

/-- A make rule. -/
structure Rule where
  target : List Char
  files : List Listed
  ending : Ending

/-- The files of a rule as a compiler prints them. -/
def printedFiles (files : List Listed) : List Char :=
  files.flatMap fun f => f.gaps.flatMap Gap.chars ++ escaped f.path

/-- A rule as a compiler prints it. -/
def Rule.text (r : Rule) : List Char :=
  r.target ++ ':' :: (printedFiles r.files ++ r.ending.chars)

/-- A path whose only signs with a meaning in a rule are blanks. -/
def PathText (path : List Char) : Prop := path ≠ [] ∧ ∀ c ∈ path, c ∉ ['\\', '#', '$']

instance (path : List Char) : Decidable (PathText path) :=
  decidable_of_iff (path ≠ [] ∧ path.all (fun c => c ∉ ['\\', '#', '$']) = true)
    (and_congr_right fun _ => List.all_eq_true.trans (by simp))

/-- The target is on one line and ends at the colon, and files are separated from each other. -/
structure Rule.Proper (r : Rule) : Prop where
  noColon : ':' ∉ r.target
  noFeed : '\n' ∉ r.target
  separated : ∀ f ∈ r.files.tail, f.gaps ≠ []
  paths : ∀ f ∈ r.files, PathText f.path

/-! ## Joining lines -/

theorem joinRule_cons {c : Char} (h : c ≠ '\\') (cs : List Char) :
    joinRule (c :: cs) = c :: joinRule cs := by
  rw [joinRule.eq_4]
  · rintro _ rfl
    exact absurd rfl h
  · rintro _ rfl
    exact absurd rfl h

/-- A backslash stays where no line end follows it. -/
theorem joinRule_backslash {cs : List Char} (feed : ∀ rest, cs ≠ '\n' :: rest)
    (carriage : ∀ rest, cs ≠ '\r' :: '\n' :: rest) :
    joinRule ('\\' :: cs) = '\\' :: joinRule cs := by
  rw [joinRule.eq_4]
  · exact fun rest _ => carriage rest
  · exact fun rest _ => feed rest

/-- Nothing is joined on one line. -/
theorem joinRule_line {line : List Char} (h : '\n' ∉ line) {c : Char} (feed : c ≠ '\n')
    (carriage : c ≠ '\r') (rest : List Char) :
    joinRule (line ++ c :: rest) = line ++ joinRule (c :: rest) := by
  have head {front : List Char} (h : '\n' ∉ front) (more : List Char) :
      front ++ c :: rest ≠ '\n' :: more := by
    cases front with
    | nil => exact fun e => feed (List.cons.inj e).1
    | cons d front => exact fun e => h ((List.cons.inj e).1 ▸ List.mem_cons_self)
  induction line with
  | nil => rfl
  | cons d line ih =>
    simp only [List.mem_cons, not_or] at h
    rw [List.cons_append, List.cons_append]
    by_cases backslash : d = '\\'
    · rw [backslash, joinRule_backslash (head h.2), ih h.2]
      intro more e
      cases line with
      | nil => exact carriage (List.cons.inj e).1
      | cons _ line =>
        simp only [List.mem_cons, not_or] at h
        exact head h.2.2 more (List.cons.inj e).2
    · rw [joinRule_cons backslash, ih h.2]

theorem joinRule_gap (g : Gap) (rest : List Char) :
    joinRule (g.chars ++ rest) = g.blank :: joinRule rest := by
  match g with
  | .space => exact joinRule_cons (by decide) rest
  | .tab => exact joinRule_cons (by decide) rest
  | .continued .feed => exact joinRule.eq_3 rest
  | .continued .returnAndFeed => exact joinRule.eq_2 rest

theorem joinRule_gaps (gaps : List Gap) (rest : List Char) :
    joinRule (gaps.flatMap Gap.chars ++ rest) = gaps.map Gap.blank ++ joinRule rest := by
  induction gaps with
  | nil => rfl
  | cons g gaps ih =>
    rw [List.flatMap_cons, List.append_assoc, joinRule_gap, ih, List.map_cons, List.cons_append]

/-- The backslash before a blank of a path is no continuation. -/
theorem joinRule_escaped {path : List Char} (h : '\\' ∉ path) (rest : List Char) :
    joinRule (escaped path ++ rest) = escaped path ++ joinRule rest := by
  induction path with
  | nil => rfl
  | cons c path ih =>
    simp only [List.mem_cons, not_or] at h
    have own : joinRule (c :: (escaped path ++ rest)) = c :: (escaped path ++ joinRule rest) := by
      rw [joinRule_cons (Ne.symm h.1), ih h.2]
    have step : escaped (c :: path) = (if isLineBlank c then ['\\', c] else [c]) ++ escaped path :=
      List.flatMap_cons
    rw [step]
    split
    next blank =>
      have head : c ≠ '\n' ∧ c ≠ '\r' := by
        constructor <;> rintro rfl <;> exact absurd blank (by decide)
      have stays : joinRule ('\\' :: c :: (escaped path ++ rest)) =
          '\\' :: joinRule (c :: (escaped path ++ rest)) :=
        joinRule_backslash (fun _ e => head.1 (List.cons.inj e).1) fun _ e =>
          head.2 (List.cons.inj e).1
      exact stays.trans (congrArg ('\\' :: ·) own)
    next => exact own

/-- The files of a rule when its lines are joined. -/
def joinedFiles (files : List Listed) : List Char :=
  files.flatMap fun f => f.gaps.map Gap.blank ++ escaped f.path

theorem joinedFiles_cons (f : Listed) (files : List Listed) :
    joinedFiles (f :: files) = f.gaps.map Gap.blank ++ (escaped f.path ++ joinedFiles files) := by
  rw [joinedFiles, List.flatMap_cons, List.append_assoc]
  rfl

theorem joinRule_files {files : List Listed} (h : ∀ f ∈ files, '\\' ∉ f.path) (e : Ending) :
    joinRule (printedFiles files ++ e.chars) = joinedFiles files ++ e.chars := by
  induction files with
  | nil => cases e <;> rfl
  | cons f files ih =>
    obtain ⟨own, others⟩ := List.forall_mem_cons.mp h
    rw [printedFiles, List.flatMap_cons, List.append_assoc, List.append_assoc, joinRule_gaps,
      joinRule_escaped own, ← printedFiles, ih others, joinedFiles_cons, List.append_assoc,
      List.append_assoc]

/-! ## Reading the files -/

theorem isBlank_gap (g : Gap) : isBlank g.blank = true := by cases g <;> rfl

/-- What follows a file begins with a blank. -/
theorem exists_blank (files : List Listed) (separated : ∀ f ∈ files, f.gaps ≠ []) (e : Ending) :
    ∃ c rest, joinedFiles files ++ e.chars = c :: rest ∧ isBlank c = true := by
  cases files with
  | nil => cases e <;> exact ⟨_, _, rfl, by decide⟩
  | cons f files =>
    obtain ⟨g, gaps, same⟩ := List.exists_cons_of_ne_nil (separated f List.mem_cons_self)
    rw [joinedFiles_cons, same]
    exact ⟨g.blank, _, rfl, isBlank_gap g⟩

/-- Reading passes over the files one at a time. -/
theorem words_files {files : List Listed} (separated : ∀ f ∈ files.tail, f.gaps ≠ [])
    (e : Ending) :
    words (joinedFiles files ++ e.chars) = files.flatMap fun f => words (escaped f.path) := by
  induction files with
  | nil => cases e <;> rfl
  | cons f files ih =>
    have blanks : ∀ c ∈ f.gaps.map Gap.blank, isBlank c = true := by
      intro c hc
      obtain ⟨g, -, rfl⟩ := List.mem_map.mp hc
      exact isBlank_gap g
    obtain ⟨c, rest, follows, blank⟩ := exists_blank files separated e
    have others := ih fun f' mem => separated f' (List.mem_of_mem_tail mem)
    rw [follows, words_cons_blank blank] at others
    rw [joinedFiles_cons, List.append_assoc, List.append_assoc, words_blanks blanks, follows,
      words_append_blank blank, others, List.flatMap_cons]

theorem escaped_solid {path : List Char} (h : ∀ c ∈ path, isBlank c = false) :
    escaped path = path := by
  have plain : ∀ c ∈ path, (if isLineBlank c then ['\\', c] else [c]) = [c] := by
    intro c hc
    refine if_neg fun blank => ?_
    have solid := h c hc
    simp only [isLineBlank, Bool.or_eq_true, decide_eq_true_eq] at blank
    rcases blank with rfl | rfl <;> exact absurd solid (by decide)
  rw [escaped, List.flatMap_congr plain, List.flatMap_singleton']

/-- The paths of a rule are read as the words of what is printed for them: the backslash before a
blank does not keep a path together. They are read back exactly if there is no blank in them,
however they are separated and wherever lines are continued. -/
theorem ruleFiles_rule {r : Rule} (h : r.Proper) :
    ruleFiles (String.ofList r.text) =
      .ok ((r.files.flatMap fun f => words (escaped f.path)).map String.ofList) ∧
    (ruleFiles (String.ofList r.text) = .ok (r.files.map (String.ofList ·.path)) ↔
      ∀ f ∈ r.files, ∀ c ∈ f.path, isBlank c = false) := by
  have plain : ∀ f ∈ r.files, '\\' ∉ f.path := fun f hf mem =>
    (h.paths f hf).2 '\\' mem List.mem_cons_self
  have joined : joinRule r.text = r.target ++ ':' :: (joinedFiles r.files ++ r.ending.chars) := by
    rw [Rule.text, joinRule_line h.noFeed (by decide) (by decide), joinRule_cons (by decide),
      joinRule_files plain]
  have after : (joinRule r.text).dropWhile (· ≠ ':') =
      ':' :: (joinedFiles r.files ++ r.ending.chars) := by
    rw [joined, dropWhile_ne h.noColon]
  have read : ruleFiles (String.ofList r.text) =
      .ok ((r.files.flatMap fun f => words (escaped f.path)).map String.ofList) := by
    rw [ruleFiles, String.toList_ofList, after]
    dsimp only
    rw [words_files h.separated]
  refine ⟨read, ?_⟩
  rw [read]
  constructor
  · intro same f hf
    have found : String.ofList f.path ∈
        (r.files.flatMap fun f => words (escaped f.path)).map String.ofList := by
      rw [Except.ok.inj same]
      exact List.mem_map_of_mem hf
    obtain ⟨word, mem, spelled⟩ := List.mem_map.mp found
    obtain ⟨f', -, own⟩ := List.mem_flatMap.mp mem
    obtain rfl := String.ofList_injective spelled
    exact solid_of_mem_words own
  · intro solid
    have single : ∀ f ∈ r.files, words (escaped f.path) = [f.path] := fun f hf => by
      rw [escaped_solid (solid f hf), words_solid (solid f hf) (h.paths f hf).1]
    rw [List.flatMap_congr single, ← List.map_eq_flatMap, List.map_map]
    rfl

/-- A rule over three lines, with both line ends. -/
def continuedRule : Rule where
  target := "main.o".toList
  files := [⟨[.space], "src/main.h".toList⟩, ⟨[.space, .continued .returnAndFeed, .tab],
    "c:/a.h".toList⟩, ⟨[.continued .feed], "é.h".toList⟩]
  ending := .feed

theorem ruleFiles_rule_continued :
    continuedRule.Proper ∧
    ruleFiles "main.o: src/main.h \\\r\n\tc:/a.h\\\né.h\n" = .ok ["src/main.h", "c:/a.h", "é.h"] := by
  have proper : continuedRule.Proper :=
    ⟨by decide, by decide, by decide, by decide⟩
  have solid : continuedRule.files.all (fun f => f.path.all fun c => !isBlank c) = true := by decide
  refine ⟨proper, (ruleFiles_rule proper).2.mpr fun f hf c hc => ?_⟩
  simpa using List.all_eq_true.mp (List.all_eq_true.mp solid f hf) c hc

/-- A rule for one file with a blank in its path. -/
def spacedRule : Rule where
  target := "a.o".toList
  files := [⟨[.space], "a b.h".toList⟩]
  ending := .feed

/-- A path with a blank is read as two paths, the first of which keeps the backslash. -/
theorem ruleFiles_spaced :
    spacedRule.Proper ∧ String.ofList spacedRule.text = "a.o: a\\ b.h\n" ∧
    ruleFiles (String.ofList spacedRule.text) = .ok ["a\\", "b.h"] ∧
    ruleFiles (String.ofList spacedRule.text) ≠ .ok ["a b.h"] := by
  have read : ruleFiles (String.ofList spacedRule.text) = .ok ["a\\", "b.h"] := by rfl
  refine ⟨⟨by decide, by decide, by decide, by decide⟩, by decide, read, ?_⟩
  rw [read]
  exact fun same => absurd (Except.ok.inj same) (by decide)

end ConstLookup.Compiler
