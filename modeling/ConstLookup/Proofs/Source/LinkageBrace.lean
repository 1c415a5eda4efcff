import ConstLookup.Proofs.Source.LineTokens
import ConstLookup.Proofs.Text.Lines
import ConstLookup.Source.Linkage
import Mathlib.Data.List.DropRight

/-!
  Lines of linkage braces. A line is to hold nothing but the brace and a comment (`OnlyBrace`). The
  end of the comment is looked for at the end of the line, however, so that a line also counts when
  code stands between two comments (`BetweenComments`). These are all lines that count
  (`isBrace_iff`).
-/

namespace ConstLookup.Linkage

open ConstLookup.Text

/-! ## Shapes of a line -/

/-- An opening `extern "C" {` or `extern "C++" {`, or a closing brace with an optional semicolon. -/
inductive Brace : List Char → Prop where
  | opening {gap language ending : List Char} (apart : gap ≠ [])
      (blank : ∀ c ∈ gap ++ ending, isLineBlank c = true)
      (named : language ∈ ["\"C\"".toList, "\"C++\"".toList]) :
      Brace ("extern".toList ++ (gap ++ (language ++ (ending ++ ['\x7b']))))
  | closing : Brace ['\x7d']
  | terminated {gap : List Char} (blank : ∀ c ∈ gap, isLineBlank c = true) :
      Brace ('\x7d' :: (gap ++ [';']))

/-- The text is a brace and then the remark, with blanks around them. -/
def Holds (text remark : List Char) : Prop :=
  ∃ lead brace gap trail, text = lead ++ (brace ++ (gap ++ (remark ++ trail))) ∧ Brace brace ∧
    ∀ c ∈ lead ++ (gap ++ trail), isLineBlank c = true

/-- A comment. One in a block goes up to its first end. -/
inductive Comment : List Char → Prop where
  | line (text : List Char) : Comment ('/' :: '/' :: text)
  | block {inner : List Char} (first : ¬ ['*', '/'] <:+: inner) :
      Comment ('/' :: '*' :: (inner ++ ['*', '/']))

/-- The text holds only a linkage brace and an optional comment. -/
def OnlyBrace (text : List Char) : Prop :=
  ∃ remark, Holds text remark ∧ (remark = [] ∨ Comment remark)

/-- A comment follows the brace and ends before the text does, which ends like a comment. -/
def BetweenComments (text : List Char) : Prop :=
  ∃ inner, Holds text ('/' :: '*' :: (inner ++ ['*', '/'])) ∧ ['*', '/'] <:+: inner

/-! ## What follows the brace -/

/-- What follows the brace, without the blanks around it. -/
def remark? (text : List Char) : Option (List Char) :=
  (afterBrace? text).map fun rest => dropEndWhile isLineBlank (skipLineBlanks rest)

/-- What may follow the brace. -/
def isRemark (remark : List Char) : Bool :=
  remark.isEmpty || ['/', '/'].isPrefixOf remark ||
    (['/', '*'].isPrefixOf remark && 4 ≤ remark.length && ['*', '/'].isSuffixOf remark)

theorem isBrace_eq (text : List Char) : isBrace text = (remark? text).any isRemark := by
  rw [isBrace, remark?]
  cases afterBrace? text <;> rfl

theorem isRemark_iff (remark : List Char) :
    isRemark remark = true ↔ remark = [] ∨ (∃ text, remark = '/' :: '/' :: text) ∨
      ∃ inner, remark = '/' :: '*' :: (inner ++ ['*', '/']) := by
  rw [isRemark, Bool.or_eq_true, Bool.or_eq_true, Bool.and_eq_true, Bool.and_eq_true, or_assoc,
    List.isEmpty_iff, List.isPrefixOf_iff_prefix, List.isPrefixOf_iff_prefix,
    List.isSuffixOf_iff_suffix, decide_eq_true_eq]
  refine or_congr_right (or_congr ?_ ?_)
  · exact ⟨fun ⟨text, h⟩ => ⟨text, h.symm⟩, fun ⟨text, h⟩ => ⟨text, h.symm⟩⟩
  · constructor
    · rintro ⟨⟨⟨rest, rfl⟩, long⟩, ends⟩
      -- the marks do not overlap, so the end stands behind the start
      obtain ⟨inner, rfl⟩ : ['*', '/'] <:+ rest := by
        refine List.suffix_of_suffix_length_le ends (List.suffix_append _ _) ?_
        simpa using long
      exact ⟨inner, rfl⟩
    · rintro ⟨inner, rfl⟩
      refine ⟨⟨⟨_, rfl⟩, by simp⟩, '/' :: '*' :: inner, by simp⟩

/-! ## Finding the brace -/

theorem skipLineBlanks_append {lead rest : List Char} (hl : ∀ c ∈ lead, isLineBlank c = true)
    (hr : ∀ c ∈ rest.head?, isLineBlank c = false) : skipLineBlanks (lead ++ rest) = rest :=
  dropWhile_run hl hr

/-- A text is its blanks at the start and the rest. -/
theorem exists_skipLineBlanks (text : List Char) :
    ∃ lead, text = lead ++ skipLineBlanks text ∧ ∀ c ∈ lead, isLineBlank c = true :=
  ⟨text.takeWhile isLineBlank, List.takeWhile_append_dropWhile.symm,
    fun _ hc => List.mem_takeWhile_imp hc⟩

/-- A brace that is found stands in the text, with blanks before and behind it. -/
theorem exists_of_afterBrace? {text rest : List Char} (h : afterBrace? text = some rest) :
    ∃ lead brace gap, text = lead ++ (brace ++ (gap ++ rest)) ∧ Brace brace ∧
      ∀ c ∈ lead ++ gap, isLineBlank c = true := by
  obtain ⟨lead, whole, before⟩ := exists_skipLineBlanks text
  have outer : ∀ {gap : List Char}, (∀ c ∈ gap, isLineBlank c = true) →
      ∀ c ∈ lead ++ gap, isLineBlank c = true :=
    fun behind => List.forall_mem_append.mpr ⟨before, behind⟩
  rw [afterBrace?] at h
  split at h
  -- a closing brace, with a semicolon or without
  next closed closing =>
    rw [closing] at whole
    obtain ⟨gap, more, between⟩ := exists_skipLineBlanks closed
    split at h
    next ended semicolon =>
      obtain rfl := Option.some.inj h
      rw [semicolon] at more
      refine ⟨lead, _, [], ?_, .terminated between, outer nofun⟩
      rw [whole, more]
      simp
    next =>
      obtain rfl := Option.some.inj h
      refine ⟨lead, _, gap, ?_, .closing, outer between⟩
      rw [whole, ← more]
      rfl
  -- an opening one
  next =>
    split at h
    next c cs opening =>
      rw [after?_eq_some_iff.mp opening] at whole
      split at h
      next apart =>
        obtain ⟨gap, more, between⟩ := exists_skipLineBlanks cs
        dsimp only at h
        split at h
        next ended found =>
          obtain rfl := Option.some.inj h
          obtain ⟨named, language, brace⟩ := Option.map_eq_some_iff.mp found
          obtain ⟨ending, further, blank⟩ := exists_skipLineBlanks named
          obtain ⟨name, mem, spelled⟩ : ∃ name ∈ ["\"C\"".toList, "\"C++\"".toList],
              skipLineBlanks cs = name ++ named := by
            split at language
            next plus =>
              obtain rfl := Option.some.inj language
              exact ⟨_, by simp, after?_eq_some_iff.mp plus⟩
            next => exact ⟨_, by simp, after?_eq_some_iff.mp language⟩
          have blanks : ∀ d ∈ (c :: gap) ++ ending, isLineBlank d = true :=
            List.forall_mem_append.mpr ⟨List.forall_mem_cons.mpr ⟨apart, between⟩, blank⟩
          refine ⟨lead, _, [], ?_, .opening (List.cons_ne_nil c gap) blanks mem, outer nofun⟩
          rw [whole, more, spelled, further, brace]
          simp
        next => cases h
      next => cases h
    next => cases h

theorem afterBrace?_closing {text rest : List Char} (h : skipLineBlanks text = '\x7d' :: rest) :
    afterBrace? text =
      match skipLineBlanks rest with
      | ';' :: ended => some ended
      | other => some other := by
  rw [afterBrace?, h]
  rfl

theorem afterBrace?_opening {text rest : List Char} {c : Char} (blank : isLineBlank c = true)
    (h : skipLineBlanks text = "extern".toList ++ c :: rest) {language ending more : List Char}
    (named : language ∈ ["\"C\"".toList, "\"C++\"".toList])
    (between : skipLineBlanks rest = language ++ (ending ++ '\x7b' :: more))
    (behind : ∀ c ∈ ending, isLineBlank c = true) : afterBrace? text = some more := by
  have trimmed : skipLineBlanks (ending ++ '\x7b' :: more) = '\x7b' :: more :=
    skipLineBlanks_append behind fun c hc => by cases hc; decide
  have start : after? "extern".toList (skipLineBlanks text) = some (c :: rest) :=
    after?_eq_some_iff.mpr h
  rw [afterBrace?]
  split
  next closed closing =>
    rw [h] at closing
    cases closing
  next =>
    rw [start]
    dsimp only
    rw [if_pos blank, between]
    rcases List.mem_pair.mp named with rfl | rfl
    · have other (cs : List Char) : after? "\"C++\"".toList ("\"C\"".toList ++ cs) = none := rfl
      rw [other]
      dsimp only
      rw [after?_eq_some_iff.mpr rfl, Option.map_some, trimmed]
      rfl
    · rw [after?_eq_some_iff.mpr rfl]
      dsimp only
      rw [Option.map_some, trimmed]
      rfl

/-- A brace in the text is found, if what follows it does not begin with a semicolon. -/
theorem Brace.afterBrace?_eq {brace : List Char} (h : Brace brace) {lead : List Char}
    (before : ∀ c ∈ lead, isLineBlank c = true) {rest : List Char}
    (other : ∀ ended, skipLineBlanks rest ≠ ';' :: ended) :
    ∃ found, afterBrace? (lead ++ (brace ++ rest)) = some found ∧
      skipLineBlanks found = skipLineBlanks rest := by
  cases h with
  | closing =>
    have start : skipLineBlanks (lead ++ (['\x7d'] ++ rest)) = '\x7d' :: rest :=
      skipLineBlanks_append before fun c hc => by cases hc; decide
    rw [afterBrace?_closing start]
    split
    next ended semicolon => exact absurd semicolon (other ended)
    next => exact ⟨_, rfl, List.dropWhile_idempotent _ _⟩
  | @terminated gap blank =>
    have start : skipLineBlanks (lead ++ ('\x7d' :: (gap ++ [';']) ++ rest)) =
        '\x7d' :: (gap ++ [';'] ++ rest) :=
      skipLineBlanks_append before fun c hc => by cases hc; decide
    have semicolon : skipLineBlanks (gap ++ [';'] ++ rest) = ';' :: rest := by
      rw [List.append_assoc]
      exact skipLineBlanks_append blank fun c hc => by cases hc; decide
    rw [afterBrace?_closing start, semicolon]
    exact ⟨rest, rfl, rfl⟩
  | @opening gap language ending apart blank named =>
    obtain ⟨c, gap, rfl⟩ := List.exists_cons_of_ne_nil apart
    obtain ⟨between, behind⟩ := List.forall_mem_append.mp blank
    obtain ⟨first, between⟩ := List.forall_mem_cons.mp between
    have quoted : ∀ text ∈ ["\"C\"".toList, "\"C++\"".toList], ∃ cs, text = '"' :: cs :=
      fun text mem => by rcases List.mem_pair.mp mem with rfl | rfl <;> exact ⟨_, rfl⟩
    obtain ⟨cs, spelled⟩ := quoted language named
    have start : skipLineBlanks
        (lead ++ ("extern".toList ++ (c :: gap ++ (language ++ (ending ++ ['\x7b']))) ++ rest)) =
          "extern".toList ++ c :: (gap ++ (language ++ (ending ++ '\x7b' :: rest))) :=
      (skipLineBlanks_append before fun c hc => by cases hc; decide).trans (by simp)
    have name : skipLineBlanks (gap ++ (language ++ (ending ++ '\x7b' :: rest))) =
        language ++ (ending ++ '\x7b' :: rest) :=
      skipLineBlanks_append between (by rw [spelled]; exact fun c hc => by cases hc; decide)
    exact ⟨rest, afterBrace?_opening first start named name behind, rfl⟩

/-! ## Lines that count -/

/-- What follows the brace is found, if there is nothing or it begins a comment. -/
theorem Holds.remark?_eq {text remark : List Char} (h : Holds text remark)
    (start : ∀ c ∈ remark.head?, c = '/') :
    remark? text = some (dropEndWhile isLineBlank remark) := by
  obtain ⟨lead, brace, gap, trail, rfl, shape, blank⟩ := h
  obtain ⟨before, blank⟩ := List.forall_mem_append.mp blank
  obtain ⟨between, behind⟩ := List.forall_mem_append.mp blank
  have rest : skipLineBlanks (gap ++ (remark ++ trail)) =
      if remark = [] then [] else remark ++ trail := by
    split
    next none =>
      rw [none, List.nil_append, ← List.append_nil (gap ++ trail)]
      exact skipLineBlanks_append blank nofun
    next some =>
      obtain ⟨c, cs, rfl⟩ := List.exists_cons_of_ne_nil some
      exact skipLineBlanks_append between fun d hd => by cases hd; rw [start c rfl]; decide
  have other : ∀ ended, skipLineBlanks (gap ++ (remark ++ trail)) ≠ ';' :: ended := by
    rw [rest]
    split
    next => nofun
    next some =>
      obtain ⟨c, cs, rfl⟩ := List.exists_cons_of_ne_nil some
      obtain rfl := start c rfl
      nofun
  obtain ⟨found, reads, same⟩ := shape.afterBrace?_eq before other
  rw [remark?, reads, Option.map_some, same, rest]
  split
  next none => rw [none]
  next => rw [dropEndWhile_trail behind]

theorem holds_of_remark? {text remark : List Char} (h : remark? text = some remark) :
    Holds text remark := by
  obtain ⟨rest, found, rfl⟩ := Option.map_eq_some_iff.mp h
  obtain ⟨lead, brace, gap, rfl, shape, blank⟩ := exists_of_afterBrace? found
  obtain ⟨more, whole, between⟩ := exists_skipLineBlanks rest
  obtain ⟨trail, ends, behind⟩ := exists_dropEndWhile isLineBlank (skipLineBlanks rest)
  refine ⟨lead, brace, gap ++ more, trail, ?_, shape, ?_⟩
  · rw [← ends, List.append_assoc, ← whole]
  · rw [← List.append_assoc, ← List.append_assoc]
    exact List.forall_mem_append.mpr ⟨List.forall_mem_append.mpr ⟨blank, between⟩, behind⟩

/-- The end of a block comment is no blank. -/
theorem dropEndWhile_block (inner : List Char) :
    dropEndWhile isLineBlank ('/' :: '*' :: (inner ++ ['*', '/'])) =
      '/' :: '*' :: (inner ++ ['*', '/']) := by
  have whole : '/' :: '*' :: (inner ++ ['*', '/']) =
      ('/' :: '*' :: (inner ++ ['*'])) ++ '/' :: [] := by
    simp
  rw [whole, dropEndWhile_append (by decide)]
  rfl

/-- A block is a comment if it has no end before its last one. -/
theorem comment_block_iff (inner : List Char) :
    Comment ('/' :: '*' :: (inner ++ ['*', '/'])) ↔ ¬ ['*', '/'] <:+: inner := by
  refine ⟨fun h => ?_, .block⟩
  generalize whole : '/' :: '*' :: (inner ++ ['*', '/']) = remark at h
  cases h with
  | line text => cases whole
  | block first =>
    obtain rfl := List.append_cancel_right (List.cons.inj (List.cons.inj whole).2).2
    exact first

/-- Whether a text holds only a brace can be told from what follows the brace. -/
theorem onlyBrace_iff (text : List Char) :
    OnlyBrace text ↔ ∃ remark, remark? text = some remark ∧ (remark = [] ∨ Comment remark) := by
  refine ⟨?_, fun ⟨remark, h, only⟩ => ⟨remark, holds_of_remark? h, only⟩⟩
  rintro ⟨_, h, rfl | comment⟩
  · exact ⟨[], h.remark?_eq nofun, .inl rfl⟩
  · cases comment with
    | line cs =>
      have ends := dropEndWhile_append (show isLineBlank '/' = false by decide) ['/'] cs
      exact ⟨_, h.remark?_eq fun c hc => by cases hc; rfl, .inr (ends ▸ .line _)⟩
    | @block inner first =>
      refine ⟨_, h.remark?_eq fun c hc => by cases hc; rfl, .inr ?_⟩
      rw [dropEndWhile_block]
      exact .block first

theorem betweenComments_iff (text : List Char) :
    BetweenComments text ↔ ∃ inner, remark? text = some ('/' :: '*' :: (inner ++ ['*', '/'])) ∧
      ['*', '/'] <:+: inner := by
  refine exists_congr fun inner => and_congr_left fun _ => ⟨fun h => ?_, holds_of_remark?⟩
  rw [h.remark?_eq fun c hc => by cases hc; rfl, dropEndWhile_block]

/-- What counts as the line of a linkage brace. -/
theorem isBrace_iff (text : List Char) :
    isBrace text = true ↔ OnlyBrace text ∨ BetweenComments text := by
  rw [isBrace_eq, Option.any_eq_true, onlyBrace_iff, betweenComments_iff]
  constructor
  · rintro ⟨remark, found, counts⟩
    rcases (isRemark_iff remark).mp counts with none | ⟨cs, rfl⟩ | ⟨inner, rfl⟩
    · exact .inl ⟨remark, found, .inl none⟩
    · exact .inl ⟨_, found, .inr (.line cs)⟩
    · by_cases ends : ['*', '/'] <:+: inner
      · exact .inr ⟨inner, found, ends⟩
      · exact .inl ⟨_, found, .inr (.block ends)⟩
  · rintro (⟨remark, found, rfl | comment⟩ | ⟨inner, found, -⟩)
    · exact ⟨[], found, rfl⟩
    · refine ⟨remark, found, (isRemark_iff remark).mpr (.inr ?_)⟩
      cases comment with
      | line cs => exact .inl ⟨cs, rfl⟩
      | block => exact .inr ⟨_, rfl⟩
    · exact ⟨_, found, (isRemark_iff _).mpr (.inr (.inr ⟨inner, rfl⟩))⟩

end ConstLookup.Linkage
