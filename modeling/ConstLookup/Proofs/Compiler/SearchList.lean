import ConstLookup.Compiler.Output
import ConstLookup.Proofs.Text.Lines
import Mathlib.Data.List.Infix
import Mathlib.Data.List.TakeWhile

/-!
  The directories that a compiler prints are those that are read back (`searchDirs_listing`). A
  printed line, without its end, is a line of the output (`outputLines_printed`); the line of a
  directory is neither a start nor an end of lists and names its directory
  (`directoriesFrom_directory`), so reading passes over the lists one directory at a time
  (`directoriesFrom_lines`). A list that does not start, or does not end, has no directories to
  read, and the failure says which of the two is missing.
-/

namespace ConstLookup.Compiler

open ConstLookup.Text

/-! ## Printed lines -/

/-- The end of a printed line: a line feed, alone or after a carriage return. -/
inductive Ending where
  | feed
  | returnAndFeed
  deriving DecidableEq

/-- The characters of the end of a line. -/
def Ending.chars : Ending → List Char
  | feed => ['\n']
  | returnAndFeed => ['\r', '\n']

/-- The lines of an output, without their ends. -/
def outputLines (output : List Char) : List (List Char) := (lines output).map chomp

/-- The text of a line: no line feed stands in it, and no carriage return at its end. -/
structure LineText (text : List Char) : Prop where
  noFeed : '\n' ∉ text
  noReturn : ∀ c ∈ text.getLast?, c ≠ '\r'

theorem LineText.of_getLast? {text : List Char} (line : '\n' ∉ text) {c : Char}
    (last : text.getLast? = some c) (other : c ≠ '\r') : LineText text where
  noFeed := line
  noReturn := by
    rw [last]
    rintro _ ⟨⟩
    exact other

theorem chomp_printed {text : List Char} (h : ∀ c ∈ text.getLast?, c ≠ '\r') (e : Ending) :
    chomp (text ++ e.chars) = text := by
  cases e with
  | returnAndFeed => simp [chomp, Ending.chars]
  | feed =>
    unfold chomp
    rw [Ending.chars, List.reverse_append, List.reverse_singleton, List.singleton_append]
    split
    next more same =>
      have last : text.getLast? = some '\r' := by
        rw [← List.head?_reverse, (List.cons.inj same).2]
        rfl
      exact absurd rfl (h '\r' last)
    next more same => rw [← (List.cons.inj same).2, List.reverse_reverse]
    next other => exact absurd rfl (other text.reverse)

/-- A line that is begun, and goes on with a printed line. -/
theorem linesFrom_printed {text : List Char} (h : '\n' ∉ text) (e : Ending)
    (begun rest : List Char) :
    linesFrom begun.reverse (text ++ e.chars ++ rest) =
      (begun ++ text ++ e.chars) :: lines rest := by
  cases e with
  | feed => simpa [Ending.chars] using linesFrom_append h begun.reverse rest
  | returnAndFeed =>
    have line : '\n' ∉ text ++ ['\r'] := by simp [h]
    simpa [Ending.chars] using linesFrom_append line begun.reverse rest

/-- A printed line is a line of the output. -/
theorem outputLines_printed {text : List Char} (h : LineText text) (e : Ending) (rest : List Char) :
    outputLines (text ++ e.chars ++ rest) = text :: outputLines rest := by
  have printed := linesFrom_printed h.noFeed e [] rest
  rw [List.nil_append, List.reverse_nil] at printed
  rw [outputLines, lines, printed, List.map_cons, chomp_printed h.noReturn, outputLines]

/-- What stands before a printed line are lines, the last of which it may continue. -/
theorem outputLines_front {text : List Char} (h : LineText text) (nonempty : text ≠ [])
    (e : Ending) (front rest : List Char) :
    ∃ whole last, outputLines (front ++ (text ++ e.chars ++ rest)) =
        whole ++ (last ++ text) :: outputLines rest ∧
      ∀ line ∈ whole, line ∈ outputLines front := by
  obtain ⟨whole, last, line, same⟩ := exists_linesFrom_append (List.not_mem_nil (a := '\n')) front
  refine ⟨whole.map chomp, last, ?_, fun l mem => ?_⟩
  · have ends : ∀ c ∈ (last ++ text).getLast?, c ≠ '\r' := by
      rw [List.getLast?_append_of_ne_nil _ nonempty]
      exact h.noReturn
    rw [outputLines, lines, same, linesFrom_printed h.noFeed, List.map_append, List.map_cons,
      chomp_printed ends, outputLines]
  · have own := same []
    rw [List.append_nil] at own
    rw [outputLines, lines, own, List.map_append]
    exact List.mem_append_left _ mem

/-! ## Listed directories -/

/-- A directory in a printed list. -/
structure Directory where
  name : List Char
  /-- A note says that it holds frameworks. -/
  framework : Bool
  ending : Ending

/-- A directory with the note after it. -/
def Directory.shown (d : Directory) : List Char :=
  d.name ++ if d.framework then frameworkNote.toList else []

/-- The text of the line of a directory. -/
def Directory.line (d : Directory) : List Char := ' ' :: d.shown

/-- A name that can stand in a list: it has no blanks around it and no line feed in it, and is not
taken for a start, an end or a note. -/
structure Listable (name : List Char) : Prop where
  nonempty : name ≠ []
  lead : ∀ c ∈ name.head?, isBlank c = false
  trail : ∀ c ∈ name.getLast?, isBlank c = false
  noFeed : '\n' ∉ name
  noStart : ¬ searchStart.toList <:+: name
  notEnd : name ≠ searchEnd.toList
  noNote : ¬ frameworkNote.toList <:+ name

theorem all_solid_iff {o : Option Char} :
    o.all (!isBlank ·) = true ↔ ∀ c ∈ o, isBlank c = false := by
  cases o <;> simp

instance (name : List Char) : Decidable (Listable name) :=
  decidable_of_iff (name ≠ [] ∧ name.head?.all (!isBlank ·) = true ∧
      name.getLast?.all (!isBlank ·) = true ∧ '\n' ∉ name ∧ ¬ searchStart.toList <:+: name ∧
      name ≠ searchEnd.toList ∧ ¬ frameworkNote.toList <:+ name)
    ⟨fun ⟨a, b, c, d, e, f, g⟩ => ⟨a, all_solid_iff.mp b, all_solid_iff.mp c, d, e, f, g⟩,
      fun ⟨a, b, c, d, e, f, g⟩ => ⟨a, all_solid_iff.mpr b, all_solid_iff.mpr c, d, e, f, g⟩⟩

/-- What ends in a character that `back` lacks does not reach into `back`. -/
theorem infix_of_infix_append {part front back : List Char} {c : Char} (h : c ∉ back)
    (found : part ++ [c] <:+: front ++ back) : part ++ [c] <:+: front := by
  induction back using List.reverseRecOn with
  | nil => rwa [List.append_nil] at found
  | append_singleton back a ih =>
    simp only [List.mem_append, List.mem_singleton, not_or] at h
    rw [← List.append_assoc, List.infix_concat_iff] at found
    rcases found with ends | found
    · obtain ⟨rest, same⟩ := ends
      rw [← List.append_assoc] at same
      exact absurd (List.append_inj_right' same rfl) (by simp [h.2])
    · exact ih h.1 found

theorem dropRepeated_of_noNote {name : List Char} (h : ¬ frameworkNote.toList <:+ name)
    (fuel : Nat) : dropRepeated frameworkNote.toList.reverse fuel name.reverse = name.reverse := by
  have stays : after? frameworkNote.toList.reverse name.reverse = none := by
    rw [after?, if_neg]
    rwa [List.isPrefixOf_iff_prefix, List.reverse_prefix]
  cases fuel with
  | zero => rfl
  | succ fuel => unfold dropRepeated; rw [stays]

/-- A note is dropped with the blank before it, and what stands before it stays. -/
theorem dropRepeated_note {name : List Char} (h : ¬ frameworkNote.toList <:+ name) (fuel : Nat) :
    dropRepeated frameworkNote.toList.reverse (fuel + 1) (name ++ frameworkNote.toList).reverse =
      name.reverse := by
  have drops : after? frameworkNote.toList.reverse (name ++ frameworkNote.toList).reverse =
      some name.reverse := by
    rw [after?_eq_some_iff, List.reverse_append]
  unfold dropRepeated
  rw [drops]
  exact dropRepeated_of_noNote h fuel

namespace Directory

variable {d : Directory}

theorem last_shown (h : Listable d.name) : ∀ c ∈ d.shown.getLast?, isBlank c = false := by
  intro c hc
  rw [shown] at hc
  cases framework : d.framework with
  | true =>
    rw [framework, if_pos rfl, List.getLast?_append_of_ne_nil _ (by decide)] at hc
    obtain rfl : ')' = c := Option.some.inj hc
    decide
  | false =>
    rw [framework, if_neg (by decide), List.append_nil] at hc
    exact h.trail c hc

/-- What is left of the line of a directory without the blanks around it. -/
theorem trim_line (h : Listable d.name) : trim d.line = d.shown := by
  obtain ⟨c, cs, name⟩ := List.exists_cons_of_ne_nil h.nonempty
  have lead : isBlank c = false := h.lead c (by rw [name]; rfl)
  have front : d.line.dropWhile isBlank = d.shown := by
    rw [line, List.dropWhile_cons_of_pos (by decide), shown, name, List.cons_append,
      List.dropWhile_cons_of_neg (by simp [lead])]
  rw [trim, front, dropEndWhile_eq_self (last_shown h)]

/-- The line of a directory is no end of the lists. -/
theorem trim_line_ne (h : Listable d.name) : trim d.line ≠ searchEnd.toList := by
  rw [trim_line h, shown]
  cases d.framework with
  | false => simpa using h.notEnd
  | true =>
    intro same
    have last := congrArg List.getLast? same
    rw [if_pos rfl, List.getLast?_append_of_ne_nil _ (by decide)] at last
    exact absurd last (by decide)

/-- The line of a directory starts no list. -/
theorem noStart_line (h : Listable d.name) : ¬ searchStart.toList <:+: d.line := by
  intro found
  rw [line, List.infix_cons_iff] at found
  rcases found with ⟨rest, same⟩ | found
  · exact absurd (List.cons.inj same).1 (by decide)
  · have ends : searchStart.toList = "search starts here".toList ++ [':'] := by decide
    rw [ends] at found
    refine h.noStart (ends ▸ infix_of_infix_append ?_ found)
    cases d.framework <;> decide

theorem directoryOf_line (h : Listable d.name) : directoryOf d.line = d.name := by
  rw [directoryOf, trim_line h, shown]
  obtain ⟨c, cs, name⟩ := List.exists_cons_of_ne_nil h.nonempty
  cases d.framework with
  | false => rw [if_neg (by decide), List.append_nil, dropRepeated_of_noNote h.noNote,
      List.reverse_reverse]
  | true =>
    have length : (d.name ++ frameworkNote.toList).length =
        (cs ++ frameworkNote.toList).length + 1 := by rw [name]; rfl
    rw [if_pos rfl, length, dropRepeated_note h.noNote, List.reverse_reverse]

theorem lineText (h : Listable d.name) : LineText d.line where
  noFeed := by
    have note : '\n' ∉ if d.framework then frameworkNote.toList else [] := by
      cases d.framework <;> decide
    simp [line, shown, h.noFeed, note]
  noReturn c hc := by
    rintro rfl
    rw [line, List.getLast?_cons_of_ne_nil (by simp [shown, h.nonempty])] at hc
    exact absurd (last_shown h _ hc) (by decide)

end Directory

/-! ## Reading the lists -/

section Reading

variable {line : List Char} {rest : List (List Char)}

theorem directoriesFrom_end (rest : List (List Char)) :
    directoriesFrom (searchEnd.toList :: rest) = some [] := by
  rw [directoriesFrom, if_pos (by decide)]

/-- A line that starts a list, after another list, has no directory. -/
theorem directoriesFrom_start (start : searchStart.toList <:+: line)
    (notEnd : trim line ≠ searchEnd.toList) :
    directoriesFrom (line :: rest) = directoriesFrom rest := by
  rw [directoriesFrom, if_neg notEnd]
  exact if_pos (by rw [containsText_iff.mpr start]; rfl)

theorem directoriesFrom_directory {d : Directory} (h : Listable d.name) :
    directoriesFrom (d.line :: rest) = (directoriesFrom rest).map (String.ofList d.name :: ·) := by
  have noStart : containsText searchStart.toList d.line = false := by
    rw [Bool.eq_false_iff]
    exact fun found => Directory.noStart_line h (containsText_iff.mp found)
  rw [directoriesFrom, if_neg (Directory.trim_line_ne h), Directory.directoryOf_line h]
  exact if_neg (by simp [noStart, h.nonempty])

/-- Reading passes over listed directories one at a time. -/
theorem directoriesFrom_lines {ds : List Directory} (h : ∀ d ∈ ds, Listable d.name) :
    directoriesFrom (ds.map Directory.line ++ rest) =
      (directoriesFrom rest).map (ds.map (String.ofList ·.name) ++ ·) := by
  induction ds with
  | nil => simp
  | cons d ds ih =>
    obtain ⟨proper, others⟩ := List.forall_mem_cons.mp h
    rw [List.map_cons, List.cons_append, directoriesFrom_directory proper, ih others,
      Option.map_map]
    rfl

/-- Lists without an end have no directories to read. -/
theorem directoriesFrom_eq_none (h : ∀ line ∈ rest, trim line ≠ searchEnd.toList) :
    directoriesFrom rest = none := by
  induction rest with
  | nil => rfl
  | cons line rest ih =>
    obtain ⟨notEnd, others⟩ := List.forall_mem_cons.mp h
    rw [directoriesFrom, if_neg notEnd, ih others]
    exact ite_self none

end Reading

section Output

variable {output : String}

/-- Without a line that starts a list nothing is read. -/
theorem searchDirs_eq_error
    (h : ∀ line ∈ outputLines output.toList, ¬ searchStart.toList <:+: line) :
    searchDirs output = .error ⟨searchStart⟩ := by
  have all : (outputLines output.toList).dropWhile (!containsText searchStart.toList ·) = [] := by
    rw [List.dropWhile_eq_nil_iff]
    intro line mem
    rw [Bool.not_eq_true', Bool.eq_false_iff]
    exact fun found => h line mem (containsText_iff.mp found)
  rw [searchDirs, ← outputLines, all]

/-- The directories after the first line that starts a list are read. -/
theorem searchDirs_eq {before after : List (List Char)} {first : List Char}
    (lines : outputLines output.toList = before ++ first :: after)
    (noStart : ∀ line ∈ before, ¬ searchStart.toList <:+: line)
    (start : searchStart.toList <:+: first) :
    searchDirs output = (directoriesFrom after).elim (.error ⟨searchEnd⟩) .ok := by
  have passed : ∀ line ∈ before, (!containsText searchStart.toList line) = true := by
    intro line mem
    rw [Bool.not_eq_true', Bool.eq_false_iff]
    exact fun found => noStart line mem (containsText_iff.mp found)
  have found : (!containsText searchStart.toList first) = false := by
    rw [containsText_iff.mpr start]
    rfl
  have reached : (outputLines output.toList).dropWhile (!containsText searchStart.toList ·) =
      first :: after := by
    rw [lines, List.dropWhile_append_of_pos passed, List.dropWhile_cons_of_neg (by simp [found])]
  rw [searchDirs, ← outputLines, reached]
  dsimp only
  cases directoriesFrom after <;> rfl

end Output

/-! ## The lists of an output -/

/-- The line before a list of directories, with the form of the includes that are searched there. -/
def startLine (form : String) : List Char := s!"#include {form} {searchStart}".toList

theorem startLine_holds (form : String) : searchStart.toList <:+: startLine form :=
  ⟨s!"#include {form} ".toList, [], by simp [startLine, toString]⟩

/-- Lists of directories as a compiler prints them, for includes in quotes and then for those in
angles, between other output. -/
structure SearchLists where
  before : List Char
  quotedEnding : Ending
  quoted : List Directory
  angledEnding : Ending
  angled : List Directory
  lastEnding : Ending
  after : List Char

/-- The printed lines of directories. -/
def printed (ds : List Directory) : List Char := ds.flatMap fun d => d.line ++ d.ending.chars

/-- What the compiler prints. -/
def SearchLists.output (l : SearchLists) : List Char :=
  l.before ++ (startLine "\"...\"" ++ l.quotedEnding.chars ++ (printed l.quoted ++
    (startLine "<...>" ++ l.angledEnding.chars ++ (printed l.angled ++
      (searchEnd.toList ++ l.lastEnding.chars ++ l.after)))))

theorem outputLines_directories {ds : List Directory} (h : ∀ d ∈ ds, Listable d.name)
    (rest : List Char) :
    outputLines (printed ds ++ rest) = ds.map Directory.line ++ outputLines rest := by
  induction ds with
  | nil => rfl
  | cons d ds ih =>
    obtain ⟨proper, others⟩ := List.forall_mem_cons.mp h
    rw [printed, List.flatMap_cons, List.append_assoc,
      outputLines_printed (Directory.lineText proper), List.map_cons, List.cons_append]
    exact congrArg (d.line :: ·) (ih others)

/-- The lines of printed lists, the first of which may continue a line before. -/
theorem SearchLists.outputLines_output (l : SearchLists)
    (listable : ∀ d ∈ l.quoted ++ l.angled, Listable d.name) :
    ∃ whole last, outputLines l.output = whole ++ (last ++ startLine "\"...\"") ::
        (l.quoted.map Directory.line ++ startLine "<...>" ::
          (l.angled.map Directory.line ++ searchEnd.toList :: outputLines l.after)) ∧
      ∀ line ∈ whole, line ∈ outputLines l.before := by
  obtain ⟨quoted, angled⟩ := List.forall_mem_append.mp listable
  have first : LineText (startLine "\"...\"") := .of_getLast? (by decide) rfl (by decide)
  have second : LineText (startLine "<...>") := .of_getLast? (by decide) rfl (by decide)
  have third : LineText searchEnd.toList := .of_getLast? (by decide) rfl (by decide)
  obtain ⟨whole, last, lines, own⟩ :=
    outputLines_front first (by decide) l.quotedEnding l.before _
  refine ⟨whole, last, lines.trans ?_, own⟩
  rw [outputLines_directories quoted, outputLines_printed second, outputLines_directories angled,
    outputLines_printed third]

/-- What is read is what a compiler lists. Let no line before the lists start one. Then the
directories of both lists are read in order, whatever stands after the end of the lists, with and
without notes, and however lines end. Without a line that starts a list nothing is read, and
without an end after the first such line neither; the failure names what is missing. -/
theorem searchDirs_listing :
    (∀ l : SearchLists, (∀ line ∈ outputLines l.before, ¬ searchStart.toList <:+: line) →
      (∀ d ∈ l.quoted ++ l.angled, Listable d.name) →
        searchDirs (String.ofList l.output) =
          .ok (l.quoted.map (String.ofList ·.name) ++ l.angled.map (String.ofList ·.name))) ∧
    (∀ output : String, (∀ line ∈ outputLines output.toList, ¬ searchStart.toList <:+: line) →
      searchDirs output = .error ⟨searchStart⟩) ∧
    ∀ (output : String) (before : List (List Char)) (first : List Char)
      (after : List (List Char)), outputLines output.toList = before ++ first :: after →
        (∀ line ∈ before, ¬ searchStart.toList <:+: line) → searchStart.toList <:+: first →
          (∀ line ∈ after, trim line ≠ searchEnd.toList) →
            searchDirs output = .error ⟨searchEnd⟩ := by
  refine ⟨fun l noStart listable => ?_, fun _ => searchDirs_eq_error,
    fun output before first after lines noStart start noEnd => ?_⟩
  · obtain ⟨quoted, angled⟩ := List.forall_mem_append.mp listable
    obtain ⟨whole, last, lines, own⟩ := l.outputLines_output listable
    rw [← String.toList_ofList (l := l.output)] at lines
    rw [searchDirs_eq lines (fun line mem => noStart line (own line mem))
        ((startLine_holds _).trans (List.suffix_append last _).isInfix),
      directoriesFrom_lines quoted, directoriesFrom_start (startLine_holds _) (by decide),
      directoriesFrom_lines angled, directoriesFrom_end]
    simp
  · simp only [searchDirs_eq lines noStart start, directoriesFrom_eq_none noEnd, Option.elim_none]

/-- Lists with directories of both kinds and lines of both ends, between other output. -/
def mixedLists : SearchLists where
  before := "Using built-in specs.\r\n".toList
  quotedEnding := .returnAndFeed
  quoted := [⟨"/src/a b".toList, false, .feed⟩]
  angledEnding := .feed
  angled := [⟨"/usr/include".toList, false, .returnAndFeed⟩,
    ⟨"/System/Frameworks".toList, true, .feed⟩]
  lastEnding := .feed
  after := " /usr/lib\nEnd of search list.".toList

theorem searchDirs_listing_mixed :
    (∀ line ∈ outputLines mixedLists.before, ¬ searchStart.toList <:+: line) ∧
    (∀ d ∈ mixedLists.quoted ++ mixedLists.angled, Listable d.name) ∧
    searchDirs (String.ofList mixedLists.output) =
      .ok ["/src/a b", "/usr/include", "/System/Frameworks"] ∧
    (∀ line ∈ outputLines "gcc: fatal error".toList, ¬ searchStart.toList <:+: line) ∧
    searchDirs "gcc: fatal error" = .error ⟨searchStart⟩ ∧
    outputLines "gcc\nsearch starts here:\n /usr\n".toList =
      ["gcc".toList] ++ "search starts here:".toList :: [" /usr".toList] ∧
    searchDirs "gcc\nsearch starts here:\n /usr\n" = .error ⟨searchEnd⟩ := by
  obtain ⟨read, noStart, noEnd⟩ := searchDirs_listing
  have lines : outputLines "gcc\nsearch starts here:\n /usr\n".toList =
      ["gcc".toList] ++ "search starts here:".toList :: [" /usr".toList] := by decide
  have front : ∀ line ∈ outputLines mixedLists.before, ¬ searchStart.toList <:+: line := by decide
  have listable : ∀ d ∈ mixedLists.quoted ++ mixedLists.angled, Listable d.name := by decide
  have plain : ∀ line ∈ outputLines "gcc: fatal error".toList,
      ¬ searchStart.toList <:+: line := by decide
  exact ⟨front, listable, read mixedLists front listable, plain, noStart _ plain, lines,
    noEnd _ _ _ _ lines (by decide) (by decide) (by decide)⟩

end ConstLookup.Compiler
