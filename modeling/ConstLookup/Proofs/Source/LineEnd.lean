import ConstLookup.Proofs.Source.Commands
import Mathlib.Data.List.Find

/-!
  Reading stops at the end of a line. What a line without comments, whose end is not continued, is
  split into does not depend on the lines after it (`lineTokens_line`), so the test of a directive
  is a function of its own line, whatever stands there (`conditionTest_line`). Every function of
  the lexer has its own lemma, which says that it takes the end of the line and all after it along
  as they are.
-/

namespace ConstLookup.Source

open ConstLookup.Text ConstLookup.Source.Lexer

/-! ## Rests of lines -/

/-- A comment begins in the text. -/
def opensComment : List Char → Bool
  | '/' :: c :: cs => c = '/' || c = '*' || opensComment (c :: cs)
  | _ :: cs => opensComment cs
  | [] => false

/-- The rest of a line without comments, whose end is not continued. -/
structure IsRest (cs : List Char) : Prop where
  line : '\n' ∉ cs
  noSplice : ¬ ['\\'] <:+ cs ∧ ¬ ['\\', '\r'] <:+ cs
  noComment : opensComment cs = false

/-- The characters that may begin a comment, a literal or a continued line end, and the line
feed. -/
def special : List Char := ['\n', '/', '\\', '"', '\'']

theorem not_special_of_isGap {c : Char} (h : isGap c = true) : c ∉ special := by
  have none : ∀ d ∈ special, isGap d = false := List.all_iff_forall_prop.mp (by decide)
  intro mem
  exact absurd h (by rw [none c mem]; decide)

theorem not_special_of_continuesWord {c : Char} (h : continuesWord c = true) : c ∉ special := by
  have none : ∀ d ∈ special, continuesWord d = false := List.all_iff_forall_prop.mp (by decide)
  intro mem
  exact absurd h (by rw [none c mem]; decide)

/-- What may stand after the rest of a line. -/
inductive LineEnd : List Char → Prop where
  | source : LineEnd []
  | line (next : List Char) : LineEnd ('\n' :: next)

theorem opensComment_cons {c : Char} {cs : List Char} (h : opensComment (c :: cs) = false) :
    opensComment cs = false := by
  unfold opensComment at h
  split at h
  · next same =>
    obtain ⟨-, rfl⟩ := List.cons.inj same
    exact (Bool.or_eq_false_iff.mp h).2
  · next same =>
    obtain ⟨-, rfl⟩ := List.cons.inj same
    exact h
  · next same => cases same

theorem opensComment_append {front cs : List Char} (h : opensComment (front ++ cs) = false) :
    opensComment cs = false := by
  induction front with
  | nil => exact h
  | cons c front ih => exact ih (opensComment_cons h)

theorem opensComment_of_append {front cs : List Char} {c : Char} (hf : opensComment front = false)
    (hc : c ∉ ['/', '*']) (h : opensComment (c :: cs) = false) :
    opensComment (front ++ c :: cs) = false := by
  simp only [List.mem_cons, List.not_mem_nil, or_false, not_or] at hc
  fun_induction opensComment front with
  | case1 d front ih =>
    simp only [Bool.or_eq_false_iff] at hf
    rw [List.cons_append, List.cons_append, opensComment, hf.1.1, hf.1.2]
    exact ih hf.2
  | case2 d front other ih =>
    rw [List.cons_append, opensComment.eq_def]
    split
    next e more same =>
      obtain ⟨rfl, rest⟩ := List.cons.inj same
      cases front with
      | nil =>
        obtain ⟨rfl, rfl⟩ := List.cons.inj rest
        simp [hc, h]
      | cons e' front => exact (other e' front rfl rfl).elim
    next same =>
      obtain ⟨-, rfl⟩ := List.cons.inj same
      exact ih hf
    next same => cases same
  | case3 => exact h

theorem IsRest.of_suffix {cs rest : List Char} (h : IsRest cs) (s : rest <:+ cs) : IsRest rest where
  line := fun mem => h.line (s.subset mem)
  noSplice := ⟨fun t => h.noSplice.1 (t.trans s), fun t => h.noSplice.2 (t.trans s)⟩
  noComment := by
    obtain ⟨front, rfl⟩ := s
    exact opensComment_append h.noComment

section Ends

variable {cs tail : List Char}

theorem splice_line (h : IsRest cs) (ht : LineEnd tail) (more : List Char) :
    cs ++ tail ≠ '\\' :: '\n' :: more ∧ cs ++ tail ≠ '\\' :: '\r' :: '\n' :: more := by
  cases ht with
  | line next => exact not_splice h.line h.noSplice next more
  | source =>
    rw [List.append_nil]
    constructor <;> rintro rfl <;> exact h.line (by simp)

theorem comment_line (h : opensComment cs = false) (ht : LineEnd tail) (more : List Char) :
    cs ++ tail ≠ '/' :: '/' :: more ∧ cs ++ tail ≠ '/' :: '*' :: more := by
  match cs with
  | [] => cases ht <;> simp
  | [c] => cases ht <;> simp
  | c :: d :: cs =>
    constructor
    · intro same
      obtain ⟨rfl, rfl, -⟩ : c = '/' ∧ d = '/' ∧ _ := by simpa using same
      simp [opensComment] at h
    · intro same
      obtain ⟨rfl, rfl, -⟩ : c = '/' ∧ d = '*' ∧ _ := by simpa using same
      simp [opensComment] at h

theorem afterComment?_line (h : opensComment cs = false) (ht : LineEnd tail) :
    afterComment? (cs ++ tail) = none := by
  unfold afterComment?
  split
  next more same => exact absurd same (comment_line h ht more).1
  next more same => exact absurd same (comment_line h ht more).2
  next => rfl

/-- A backslash takes the character after it along, unless it ends the line. -/
theorem IsRest.noEscape {c : Char} (h : IsRest (c :: cs))
    (last : ∀ d ds, c = '\\' → cs = d :: ds → False) : c ≠ '\\' := by
  rintro rfl
  cases cs with
  | nil => exact h.noSplice.1 List.suffix_rfl
  | cons d ds => exact last d ds rfl rfl

/-- A part without special characters may stand before the rest of a line. -/
theorem IsRest.append {front : List Char} (hf : ∀ c ∈ front, c ∉ special) (h : IsRest cs) :
    IsRest (front ++ cs) := by
  induction front with
  | nil => exact h
  | cons c front ih =>
    obtain ⟨own, others⟩ := List.forall_mem_cons.mp hf
    simp only [special, List.mem_cons, List.not_mem_nil, or_false, not_or] at own
    have rest := ih others
    refine ⟨by simp [Ne.symm own.1, rest.line], ⟨fun s => ?_, fun s => ?_⟩, ?_⟩
    · rcases List.suffix_cons_iff.mp s with same | s
      · exact own.2.2.1 (List.cons.inj same).1.symm
      · exact rest.noSplice.1 s
    · rcases List.suffix_cons_iff.mp s with same | s
      · exact own.2.2.1 (List.cons.inj same).1.symm
      · exact rest.noSplice.2 s
    · rw [List.cons_append, opensComment.eq_2 _ _ fun d ds slash _ => own.2.1 slash]
      exact rest.noComment

/-! ## Starts -/

theorem head?_line (ht : LineEnd tail) {d : Char} (hd : d ≠ '\n') :
    decide ((cs ++ tail).head? = some d) = decide (cs.head? = some d) := by
  cases cs with
  | nil =>
    cases ht with
    | source => rfl
    | line next => simp [hd.symm]
  | cons c cs => rfl

theorem isPrefixOf_line {front : List Char} (hf : '\n' ∉ front) (ht : LineEnd tail) :
    front.isPrefixOf (cs ++ tail) = front.isPrefixOf cs := by
  induction front generalizing cs with
  | nil => rfl
  | cons c front ih =>
    simp only [List.mem_cons, not_or] at hf
    cases cs with
    | nil =>
      cases ht with
      | source => rfl
      | line next =>
        rw [List.nil_append, List.isPrefixOf_cons_cons, beq_false_of_ne (Ne.symm hf.1)]
        rfl
    | cons d cs =>
      rw [List.cons_append, List.isPrefixOf_cons_cons, List.isPrefixOf_cons_cons, ih hf.2]

theorem dropWhile_line {p : Char → Bool} (hp : p '\n' = false) (ht : LineEnd tail) :
    (cs ++ tail).dropWhile p = cs.dropWhile p ++ tail := by
  induction cs with
  | nil =>
    cases ht with
    | source => rfl
    | line next => simp [hp]
  | cons c cs ih =>
    by_cases h : p c = true
    · simpa [h] using ih
    · simp [h]

/-! ## Lexemes -/

theorem afterNumber_line (previous : Char) (ht : LineEnd tail) :
    afterNumber previous (cs ++ tail) = afterNumber previous cs ++ tail := by
  induction cs generalizing previous with
  | nil =>
    cases ht with
    | source => rfl
    | line next =>
      rw [List.nil_append, afterNumber]
      simp [isIdentPart, isAsciiLetter, isDigit, afterNumber]
  | cons c cs ih =>
    rw [List.cons_append, afterNumber, afterNumber]
    split
    · exact ih c
    · rfl

theorem afterQuoted?_line (quote : Char) (h : IsRest cs) (ht : LineEnd tail) :
    afterQuoted? quote (cs ++ tail) = (afterQuoted? quote cs).map (· ++ tail) := by
  fun_induction afterQuoted? quote cs with
  | case1 => cases ht <;> rfl
  | case2 => exact absurd h.line (by simp)
  | case3 => exact absurd h.line (by simp)
  | case4 c cs other ih =>
    have plain := splice_line h ht
    have shorter : cs <:+ '\\' :: c :: cs := (List.suffix_cons c cs).trans (List.suffix_cons '\\' _)
    rw [List.cons_append, List.cons_append, afterQuoted?.eq_4, ih (h.of_suffix shorter)]
    rintro more rfl same
    exact (plain more).2 (by rw [← same]; rfl)
  | case5 cs noLine _ other =>
    have plain := h.noEscape other
    rw [List.cons_append, afterQuoted?.eq_5 quote quote _ noLine (fun _ same => absurd same plain)
      (fun _ _ same => absurd same plain), if_pos rfl]
    rfl
  | case6 c cs noLine _ other noQuote ih =>
    have plain := h.noEscape other
    rw [List.cons_append, afterQuoted?.eq_5 quote c _ noLine (fun _ same => absurd same plain)
      (fun _ _ same => absurd same plain), if_neg noQuote, ih (h.of_suffix (List.suffix_cons c cs))]

theorem opening?_line (ht : LineEnd tail) :
    opening? (cs ++ tail) = (opening? cs).map fun p => (p.1, p.2 ++ tail) := by
  have line : ∀ e ∈ encodings, '\n' ∉ e := by decide
  rw [opening?, opening?, List.map_findSome?]
  generalize encodings = es at line
  induction es with
  | nil => rfl
  | cons e es ih =>
    obtain ⟨own, line⟩ := List.forall_mem_cons.mp line
    rw [List.findSome?_cons, List.findSome?_cons, ih line, isPrefixOf_line own ht,
      Function.comp_apply]
    by_cases front : e.isPrefixOf cs = true
    · rw [if_pos front, if_pos front, List.drop_append_of_le_length
        (List.isPrefixOf_iff_prefix.mp front).length_le]
      cases cs.drop e.length with
      | nil => cases ht <;> rfl
      | cons c cs =>
        by_cases double : c = '"'
        · subst double
          rfl
        · by_cases single : c = '\''
          · subst single
            rfl
          · simp [double, single]
    · rw [if_neg front, if_neg front]
      rfl

/-! ### What is left -/

theorem opening?_suffix {c quote : Char} {cs inside : List Char}
    (h : opening? (c :: cs) = some (quote, inside)) : inside <:+ cs := by
  have shorter : ∀ {d : Char} {n : Nat}, (c :: cs).drop n = d :: inside → inside <:+ cs := by
    intro d n same
    have part : d :: inside <:+ c :: cs := same ▸ List.drop_suffix n (c :: cs)
    rcases List.suffix_cons_iff.mp part with whole | part
    · exact (List.cons.inj whole).2 ▸ List.suffix_rfl
    · exact (List.suffix_cons d inside).trans part
  obtain ⟨e, -, found⟩ := List.exists_of_findSome?_eq_some h
  split at found
  · split at found
    next rest same =>
      obtain ⟨-, rfl⟩ := Prod.mk.inj (Option.some.inj found)
      exact shorter same
    next rest same =>
      obtain ⟨-, rfl⟩ := Prod.mk.inj (Option.some.inj found)
      exact shorter same
    next => cases found
  · cases found

theorem afterQuoted?_suffix {quote : Char} {cs rest : List Char}
    (h : afterQuoted? quote cs = some rest) : rest <:+ cs := by
  fun_induction afterQuoted? quote cs with
  | case1 => cases h
  | case2 => cases h
  | case3 cs ih =>
    exact (ih h).trans (((List.suffix_cons _ _).trans (List.suffix_cons _ _)).trans
      (List.suffix_cons _ _))
  | case4 c cs _ ih => exact (ih h).trans ((List.suffix_cons _ _).trans (List.suffix_cons _ _))
  | case5 cs =>
    cases h
    exact List.suffix_cons _ _
  | case6 c cs _ _ _ _ ih => exact (ih h).trans (List.suffix_cons _ _)

/-- What stands after the end of a literal has no part in it. -/
theorem afterQuoted?_append {quote : Char} (hq : quote ≠ '\\') {cs rest : List Char}
    (h : afterQuoted? quote cs = some rest) (more : List Char) :
    afterQuoted? quote (cs ++ more) = some (rest ++ more) := by
  fun_induction afterQuoted? quote cs with
  | case1 => cases h
  | case2 => cases h
  | case3 cs ih => exact ih h
  | case4 c cs plain ih =>
    rw [List.cons_append, List.cons_append, afterQuoted?.eq_4, ih h]
    rintro others rfl same
    cases cs with
    | nil => cases h
    | cons d cs => exact plain cs rfl (by rw [(List.cons.inj same).1])
  | case5 cs noLine =>
    cases h
    rw [List.cons_append, afterQuoted?.eq_5 quote quote _ noLine (fun _ same => absurd same hq)
      (fun _ _ same => absurd same hq), if_pos rfl]
  | case6 c cs noLine noSplice other noQuote ih =>
    have plain : c ≠ '\\' := by
      rintro rfl
      cases cs with
      | nil => cases h
      | cons d cs => exact other d cs rfl rfl
    rw [List.cons_append, afterQuoted?.eq_5 quote c _ noLine (fun _ same => absurd same plain)
      (fun _ _ same => absurd same plain), if_neg noQuote, ih h]

theorem afterNumber_suffix (previous : Char) (cs : List Char) : afterNumber previous cs <:+ cs := by
  induction cs generalizing previous with
  | nil => exact List.suffix_rfl
  | cons c cs ih =>
    rw [afterNumber]
    split
    · exact (ih c).trans (List.suffix_cons _ _)
    · exact List.suffix_rfl

/-- A token takes its first character along. -/
theorem lexeme_suffix (c : Char) (cs : List Char) : (lexeme directiveMarks c cs).2.1 <:+ cs := by
  rw [lexeme]
  split
  next quote inside opening =>
    have inner := opening?_suffix opening
    split
    next rest closed => exact (afterQuoted?_suffix closed).trans inner
    next => exact (List.dropWhile_suffix _).trans inner
  next =>
    split
    · exact List.dropWhile_suffix _
    · split
      · exact afterNumber_suffix c cs
      · split
        next m found =>
          have nonempty : ∀ m ∈ directiveMarks, m.length ≠ 0 := by decide
          obtain ⟨n, length⟩ :=
            Nat.exists_eq_succ_of_ne_zero (nonempty m (List.mem_of_find?_eq_some found))
          rw [length]
          exact List.drop_suffix n cs
        next => exact List.suffix_rfl

/-- A token of a line ends in it. -/
theorem lexeme_line {c : Char} (h : IsRest (c :: cs)) (ht : LineEnd tail) :
    lexeme directiveMarks c (cs ++ tail) =
      ((lexeme directiveMarks c cs).1, (lexeme directiveMarks c cs).2.1 ++ tail,
        (lexeme directiveMarks c cs).2.2) := by
  have opening : opening? (c :: (cs ++ tail)) =
      (opening? (c :: cs)).map fun p => (p.1, p.2 ++ tail) := by
    rw [← List.cons_append, opening?_line ht]
  have digit : ((cs ++ tail).head?.map isDigit).getD false = (cs.head?.map isDigit).getD false := by
    cases cs with
    | nil => cases ht <;> rfl
    | cons d cs => rfl
  have long : (directiveMarks.find? fun m => m.toList.isPrefixOf (c :: (cs ++ tail))) =
      directiveMarks.find? fun m => m.toList.isPrefixOf (c :: cs) := by
    have line : ∀ m ∈ directiveMarks, '\n' ∉ m.toList := by decide
    refine List.find?_congr fun m hm => ?_
    rw [← List.cons_append, isPrefixOf_line (line m hm) ht]
  rw [lexeme, lexeme, opening]
  cases found : opening? (c :: cs) with
  | some p =>
    obtain ⟨quote, inside⟩ := p
    have inner : inside <:+ c :: cs := (opening?_suffix found).trans (List.suffix_cons c cs)
    dsimp only [Option.map_some]
    rw [afterQuoted?_line quote (h.of_suffix inner) ht]
    cases afterQuoted? quote inside with
    | some rest =>
      dsimp only [Option.map_some]
      rw [head?_line ht (by decide)]
    | none =>
      dsimp only [Option.map_none]
      rw [dropWhile_line (by decide) ht]
  | none =>
    dsimp only [Option.map_none]
    split
    · rw [dropWhile_line (by decide) ht]
    · rw [digit]
      split
      · rw [afterNumber_line c ht]
      · rw [long]
        cases found : directiveMarks.find? fun m => m.toList.isPrefixOf (c :: cs) with
        | some m =>
          have front : m.toList.isPrefixOf (c :: cs) = true := by simpa using List.find?_some found
          have short : m.length ≤ (c :: cs).length :=
            String.length_toList ▸ (List.isPrefixOf_iff_prefix.mp front).length_le
          dsimp only
          rw [← List.cons_append, List.drop_append_of_le_length short]
        | none =>
          dsimp only
          rw [head?_line ht (by decide)]

/-! ## Tokens of a line -/

/-- Blanks of a line are skipped up to its end. -/
theorem afterLineGap_line (h : IsRest cs) (ht : LineEnd tail) {steps : Nat}
    (enough : cs.length < steps) :
    afterLineGap steps (cs ++ tail) = cs.dropWhile isGap ++ tail := by
  induction cs generalizing steps with
  | nil =>
    obtain ⟨steps, rfl⟩ := Nat.exists_eq_add_of_lt enough
    cases ht with
    | source => rfl
    | line next =>
      have none : ∀ c ∈ ([] : List Char), isGap c = true := nofun
      exact afterLineGap_append none (solid_newline next) (by simp)
  | cons c cs ih =>
    obtain ⟨steps, rfl⟩ := Nat.exists_eq_add_of_lt enough
    have solid : afterComment? (c :: (cs ++ tail)) = none := afterComment?_line h.noComment ht
    have plain := splice_line h ht
    rw [List.cons_append] at plain
    rw [List.cons_append, List.length_cons, afterLineGap_of_plain plain]
    by_cases gap : isGap c = true
    · rw [if_pos gap, List.dropWhile_cons_of_pos gap]
      exact ih (h.of_suffix (List.suffix_cons c cs)) (by omega)
    · rw [if_neg gap, List.dropWhile_cons_of_neg gap, solid]
      rfl

theorem consumed_line {rest : List Char} (h : rest <:+ cs) :
    consumed (cs ++ tail) (rest ++ tail) = consumed cs rest := by
  obtain ⟨front, rfl⟩ := h
  rw [consumed_append, List.append_assoc, consumed_append]

/-- The tokens of a line are those of its text alone. -/
theorem lineTokens_line (h : IsRest cs) (ht : LineEnd tail) {steps steps' : Nat}
    (enough : cs.length < steps) (enough' : cs.length < steps') :
    lineTokens steps (cs ++ tail) = ((lineTokens steps' cs).1, tail) := by
  induction steps generalizing cs steps' with
  | zero => exact absurd enough (Nat.not_lt_zero _)
  | succ steps ih =>
    obtain ⟨steps', rfl⟩ := Nat.exists_eq_add_of_lt enough'
    have gap : afterLineGap ((cs ++ tail).length + 1) (cs ++ tail) = cs.dropWhile isGap ++ tail :=
      afterLineGap_line h ht (by simp only [List.length_append]; omega)
    have own : afterLineGap (cs.length + 1) cs = cs.dropWhile isGap := by
      simpa using afterLineGap_line h .source (Nat.lt_succ_self _)
    have part : cs.dropWhile isGap <:+ cs := List.dropWhile_suffix _
    cases start : cs.dropWhile isGap with
    | nil =>
      rw [start, List.nil_append] at gap
      rw [start] at own
      rw [lineTokens, lineTokens, gap, own]
      cases ht <;> rfl
    | cons c more =>
      rw [start] at gap own part
      have inner := h.of_suffix part
      have noLine : c ≠ '\n' := fun same => inner.line (same ▸ List.mem_cons_self)
      have left := lexeme_suffix c more
      have reads := lexeme_line inner ht
      generalize own' : lexeme directiveMarks c more = read at left reads
      obtain ⟨kind, rest, sound⟩ := read
      have shorter := part.length_le
      have shorter' : rest.length ≤ more.length := left.length_le
      rw [List.length_cons] at shorter
      have taken : rest <:+ c :: more := left.trans (List.suffix_cons c more)
      have others : lineTokens steps (rest ++ tail) =
          ((lineTokens (cs.length + steps') rest).1, tail) :=
        ih (inner.of_suffix taken) (by omega) (by omega)
      have text : consumed (c :: (more ++ tail)) (rest ++ tail) = consumed (c :: more) rest :=
        consumed_line taken
      have before : consumed (cs ++ tail) (c :: (more ++ tail)) = consumed cs (c :: more) :=
        consumed_line part
      rw [List.cons_append] at gap
      rw [lineTokens_cons gap noLine reads, lineTokens_cons own noLine own', others, text, before]

/-- The test of a line is that of its text alone. -/
theorem conditionTest_line (h : IsRest cs) (ht : LineEnd tail) :
    ∃ sound, conditionTest (cs ++ tail) = ((conditionTest cs).1, tail, sound) := by
  have tokens : lineTokens ((cs ++ tail).length + 1) (cs ++ tail) =
      ((lineTokens (cs.length + 1) cs).1, tail) :=
    lineTokens_line h ht (by simp only [List.length_append]; omega) (Nat.lt_succ_self _)
  rw [conditionTest, conditionTest, tokens]
  dsimp only
  split
  · exact ⟨_, rfl⟩
  · exact ⟨_, rfl⟩

end Ends

end ConstLookup.Source
