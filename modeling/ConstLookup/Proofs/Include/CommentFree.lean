import ConstLookup.Include.Scan
import Mathlib.Data.List.Infix

/-!
  What a scan for comments keeps of a text (`stripComments_keeps_lines`). A place of a text stands
  outside quotes and comments if whole parts end there: characters of code, quoted parts and
  comments (`Outside`); a text is free of comments if none begins at such a place. Each place keeps
  its line, since a comment gives way to its line feeds and a blank (`Outside.exists_front`). No
  comment is left, for a blank or a line feed stands where one was (`stripFrom_stripFrom`). A text
  with a comment gets shorter (`length_stripComments_lt`), so the texts without comments are those
  that stay as they are (`stripComments_eq_self_iff`).
-/

namespace ConstLookup.Include

/-! ## Texts without comments -/

/-- A character that begins a quoted part where it stands outside quotes and comments. -/
def isMark (c : Char) : Bool := c = '"' || c = '\''

/-- The text begins with a comment, if it stands outside quotes and comments. -/
def StartsComment (cs : List Char) : Prop := ['/', '/'] <+: cs ∨ ['/', '*'] <+: cs

/-- No character of the text ends a quoted part, for each is escaped or neither the mark of the part
nor a line feed. -/
inductive Inside (mark : Char) : List Char → Prop where
  | nil : Inside mark []
  | plain {c : Char} {cs : List Char} (noMark : c ≠ mark) (noFeed : c ≠ '\n') (noEscape : c ≠ '\\')
      (more : Inside mark cs) : Inside mark (c :: cs)
  | escaped (c : Char) {cs : List Char} (more : Inside mark cs) : Inside mark ('\\' :: c :: cs)

/-- In the text `before ++ rest`, the place after `before` stands outside quotes and comments. A
quoted part ends with the next mark or line feed that is not escaped. A comment on a line ends
before the line feed, and any other one with the next star that a slash follows. -/
inductive Outside : List Char → List Char → Prop where
  | start (rest : List Char) : Outside [] rest
  | code {c : Char} {before rest : List Char} (noMark : isMark c = false)
      (noComment : ¬ StartsComment (c :: (before ++ rest))) (more : Outside before rest) :
      Outside (c :: before) rest
  | quoted {mark close : Char} {body before rest : List Char} (opens : isMark mark = true)
      (inside : Inside mark body) (closes : close = mark ∨ close = '\n')
      (more : Outside before rest) : Outside (mark :: (body ++ close :: before)) rest
  | lineComment {body before rest : List Char} (line : '\n' ∉ body)
      (ends : ∀ c ∈ (before ++ rest).head?, c = '\n') (more : Outside before rest) :
      Outside ('/' :: '/' :: (body ++ before)) rest
  | blockComment {body before rest : List Char} (first : ¬ ['*', '/'] <:+: body ++ ['*'])
      (more : Outside before rest) :
      Outside ('/' :: '*' :: (body ++ '*' :: '/' :: before)) rest

/-- No comment begins at a place outside quotes. -/
def CommentFree (text : List Char) : Prop :=
  ∀ before rest, text = before ++ rest → Outside before rest → ¬ StartsComment rest

/-! ## Parts of a text -/

theorem startsComment_cons {c : Char} {cs : List Char} :
    StartsComment (c :: cs) ↔ c = '/' ∧ ∃ d ∈ cs.head?, d = '/' ∨ d = '*' := by
  cases cs with
  | nil => simp [StartsComment, List.prefix_cons_iff]
  | cons d cs => simp [StartsComment, List.cons_prefix_cons, ← and_or_left, eq_comm]

theorem ne_escape_of_isMark {c : Char} (h : isMark c = true) : c ≠ '\\' := by
  rintro rfl
  exact absurd h (by decide)

theorem stripFrom_code {c : Char} {cs : List Char} (h : ¬ StartsComment (c :: cs)) :
    stripFrom .code (c :: cs) = c :: stripFrom (if isMark c then .quoted c else .code) cs := by
  rw [startsComment_cons] at h
  rw [stripFrom.eq_4]
  · rfl
  · rintro more rfl rfl
    exact h ⟨rfl, '/', rfl, .inl rfl⟩
  · rintro more rfl rfl
    exact h ⟨rfl, '*', rfl, .inr rfl⟩

theorem stripFrom_inside {mark close : Char} {body : List Char} (opens : isMark mark = true)
    (inside : Inside mark body) (closes : close = mark ∨ close = '\n') (rest : List Char) :
    stripFrom (.quoted mark) (body ++ close :: rest) =
      body ++ close :: stripFrom .code rest := by
  induction inside with
  | nil =>
    have noEscape : close ≠ '\\' := by
      rcases closes with rfl | rfl
      · exact ne_escape_of_isMark opens
      · decide
    rw [List.nil_append, stripFrom_unescaped noEscape, if_pos (by simp [or_comm, closes])]
    rfl
  | plain noMark noFeed noEscape more ih =>
    rw [List.cons_append, stripFrom_unescaped noEscape, if_neg (by simp [noMark, noFeed]), ih]
    rfl
  | escaped c more ih =>
    rw [List.cons_append, List.cons_append, stripFrom_escaped, ih]
    rfl

theorem stripFrom_lineComment {body rest : List Char} (line : '\n' ∉ body)
    (ends : ∀ c ∈ rest.head?, c = '\n') :
    stripFrom .lineComment (body ++ rest) = stripFrom .code rest := by
  induction body with
  | nil =>
    cases rest with
    | nil => rfl
    | cons c rest =>
      obtain rfl : c = '\n' := ends c rfl
      rfl
  | cons c body ih =>
    simp only [List.mem_cons, not_or] at line
    rw [List.cons_append, stripFrom, if_neg (Ne.symm line.1), ih line.2]

/-- A comment that may span lines gives way to its line feeds and a blank. -/
theorem stripFrom_blockComment {body : List Char} {star : Bool}
    (unclosed : star = true → ∀ c ∈ body.head?, c ≠ '/') (first : ¬ ['*', '/'] <:+: body ++ ['*'])
    (rest : List Char) :
    stripFrom (.blockComment star) (body ++ '*' :: '/' :: rest) =
      body.filter (· = '\n') ++ ' ' :: stripFrom .code rest := by
  induction body generalizing star with
  | nil => simp [stripFrom]
  | cons c body ih =>
    have goesOn : (star && decide (c = '/')) = false := by
      cases star with
      | false => rfl
      | true => simpa using unclosed rfl c rfl
    have next : decide (c = '*') = true → ∀ d ∈ body.head?, d ≠ '/' := by
      rintro starred d head rfl
      obtain ⟨more, rfl⟩ := List.head?_eq_some_iff.mp head
      rw [of_decide_eq_true starred] at first
      exact first ⟨[], more ++ ['*'], by simp⟩
    have later : ¬ ['*', '/'] <:+: body ++ ['*'] := fun found =>
      first (found.trans (List.suffix_cons c _).isInfix)
    rw [List.cons_append, stripFrom, goesOn, if_neg Bool.false_ne_true]
    split
    next feed =>
      subst feed
      rw [ih (fun starred => absurd starred (by decide)) later]
      rfl
    next other => rw [ih next later, List.filter_cons_of_neg (by simpa using other)]

/-! ## Lines -/

/-- The text before a place outside quotes and comments is stripped by itself. It keeps its line
feeds and gets no longer. -/
theorem Outside.exists_front {before rest : List Char} (h : Outside before rest) :
    ∃ front, stripComments (before ++ rest) = front ++ stripComments rest ∧
      front.count '\n' = before.count '\n' ∧ front.length ≤ before.length := by
  induction h with
  | start rest => exact ⟨[], rfl, rfl, le_rfl⟩
  | @code c before rest noMark noComment more ih =>
    obtain ⟨front, text, feeds, short⟩ := ih
    refine ⟨c :: front, ?_, by rw [List.count_cons, List.count_cons, feeds],
      Nat.succ_le_succ short⟩
    rw [List.cons_append, stripComments, stripFrom_code noComment, noMark,
      if_neg Bool.false_ne_true, ← stripComments, text]
    rfl
  | @quoted mark close body before rest opens inside closes more ih =>
    obtain ⟨front, text, feeds, short⟩ := ih
    refine ⟨mark :: (body ++ close :: front), ?_, by simp [List.count_cons, feeds], by simpa⟩
    have code : ¬ StartsComment (mark :: ((body ++ close :: before) ++ rest)) := by
      rw [startsComment_cons]
      rintro ⟨rfl, -⟩
      exact absurd opens (by decide)
    rw [List.cons_append, stripComments, stripFrom_code code, opens, if_pos rfl, List.append_assoc,
      List.cons_append, stripFrom_inside opens inside closes, ← stripComments, text]
    simp
  | @lineComment body before rest line ends more ih =>
    obtain ⟨front, text, feeds, short⟩ := ih
    refine ⟨' ' :: front, ?_, ?_, ?_⟩
    · rw [List.cons_append, List.cons_append, List.append_assoc, stripComments, stripFrom,
        stripFrom_lineComment line ends, ← stripComments, text]
      rfl
    · simpa [List.count_cons, List.count_eq_zero_of_not_mem line] using feeds
    · simp only [List.length_cons, List.length_append]
      omega
  | @blockComment body before rest first more ih =>
    obtain ⟨front, text, feeds, short⟩ := ih
    refine ⟨body.filter (· = '\n') ++ ' ' :: front, ?_, ?_, ?_⟩
    · rw [List.cons_append, List.cons_append, List.append_assoc, stripComments, stripFrom,
        List.cons_append, List.cons_append,
        stripFrom_blockComment (fun starred => absurd starred (by decide)) first,
        ← stripComments, text]
      simp
    · simp [List.count_append, List.count_filter, feeds]
    · have := List.length_filter_le (fun c => decide (c = '\n')) body
      simp only [List.length_cons, List.length_append]
      omega

/-! ## Nothing left to strip -/

/-- Where the scan stands in the stripped text: comments are gone. -/
def Region.stripped : Region → Region
  | .quoted mark => .quoted mark
  | .code | .lineComment | .blockComment _ => .code

theorem head?_stripFrom_blockComment {star : Bool} {cs : List Char} {d : Char}
    (h : d ∈ (stripFrom (.blockComment star) cs).head?) : d = ' ' ∨ d = '\n' := by
  induction cs generalizing star with
  | nil => exact .inl (Option.some.inj h).symm
  | cons c cs ih =>
    rw [stripFrom] at h
    split at h
    · exact .inl (Option.some.inj h).symm
    · split at h
      · exact .inr (Option.some.inj h).symm
      · exact ih h

/-- What stands first stood there before, unless a comment did. -/
theorem head?_stripFrom_code {cs : List Char} {d : Char} (h : d ∈ (stripFrom .code cs).head?) :
    d ∈ cs.head? ∨ d = ' ' ∨ d = '\n' := by
  match cs with
  | [] => cases h
  | c :: cs =>
    by_cases comment : StartsComment (c :: cs)
    · rcases comment with ⟨rest, text⟩ | ⟨rest, text⟩
      · rw [← text] at h
        exact .inr (.inl (Option.some.inj h).symm)
      · rw [← text] at h
        exact .inr (head?_stripFrom_blockComment h)
    · rw [stripFrom_code comment] at h
      exact .inl h

theorem not_startsComment_stripFrom {c : Char} {cs : List Char} {r : Region}
    (h : ¬ StartsComment (c :: cs)) (code : c = '/' → r = .code) :
    ¬ StartsComment (c :: stripFrom r cs) := by
  rw [startsComment_cons] at h ⊢
  rintro ⟨slash, d, head, own⟩
  rw [code slash] at head
  rcases head?_stripFrom_code head with mem | rfl | rfl
  · exact h ⟨slash, d, mem, own⟩
  · exact absurd own (by decide)
  · exact absurd own (by decide)

/-- What is left is left as it is by another scan. -/
theorem stripFrom_stripFrom (r : Region) (cs : List Char) :
    stripFrom r.stripped (stripFrom r cs) = stripFrom r cs := by
  fun_induction stripFrom r cs with
  | case1 | case5 | case8 | case11 => rfl
  | case2 cs ih | case12 star c cs ends ih => exact congrArg (' ' :: ·) ih
  | case3 cs ih | case10 c cs other ih | case14 star c cs _ other ih => exact ih
  | case9 cs ih | case13 star cs _ ih => exact congrArg ('\n' :: ·) ih
  | case4 c cs noLine noBlock ih =>
    have plain : ¬ StartsComment (c :: cs) := by
      rintro (⟨rest, text⟩ | ⟨rest, text⟩)
      · exact noLine rest (List.cons.inj text).1.symm (List.cons.inj text).2.symm
      · exact noBlock rest (List.cons.inj text).1.symm (List.cons.inj text).2.symm
    -- After a slash stands what stood there before, or a blank or line feed in place of a comment.
    rw [← isMark] at ih ⊢
    have left : ¬ StartsComment (c :: stripFrom (if isMark c then .quoted c else .code) cs) := by
      refine not_startsComment_stripFrom plain ?_
      rintro rfl
      rfl
    have kept : (if isMark c then Region.quoted c else .code).stripped =
        if isMark c then .quoted c else .code := by
      split <;> rfl
    rw [kept] at ih
    exact (stripFrom_code left).trans (congrArg (c :: ·) ih)
  | case6 mark c cs ih =>
    rw [Region.stripped, stripFrom_escaped]
    exact congrArg ('\\' :: c :: ·) ih
  | case7 mark c cs noEscape ih =>
    -- A backslash that takes no character along ends the text, and so it does in what is left.
    have alone : ∀ d ds, c = '\\' →
        stripFrom (if c = '\n' || c = mark then .code else .quoted mark) cs = d :: ds → False := by
      intro d ds escape text
      cases cs with
      | nil => split at text <;> cases text
      | cons e cs => exact noEscape e cs escape rfl
    have kept : (if c = '\n' || c = mark then Region.code else .quoted mark).stripped =
        if c = '\n' || c = mark then .code else .quoted mark := by
      split <;> rfl
    rw [kept] at ih
    rw [Region.stripped, stripFrom.eq_7 mark c _ alone]
    exact congrArg (c :: ·) ih

/-! ## Texts that stay as they are -/

/-- What a region adds to its end, at most. -/
def Region.room : Region → Nat
  | .blockComment _ => 1
  | .code | .quoted _ | .lineComment => 0

theorem length_stripFrom_le (r : Region) (cs : List Char) :
    (stripFrom r cs).length ≤ cs.length + r.room := by
  fun_induction stripFrom r cs with
  | case1 | case5 | case8 | case11 => simp [Region.room]
  | case2 | case3 | case6 | case9 | case10 | case12 | case13 | case14 =>
    simp only [List.length_cons, Region.room] at *
    omega
  | case4 c cs _ _ ih =>
    have room : (if c = '"' || c = '\'' then Region.quoted c else .code).room = 0 := by
      split <;> rfl
    rw [room] at ih
    exact Nat.succ_le_succ ih
  | case7 mark c cs _ ih =>
    have room : (if c = '\n' || c = mark then Region.code else .quoted mark).room = 0 := by
      split <;> rfl
    rw [room] at ih
    exact Nat.succ_le_succ ih

/-- A comment is longer than what it gives way to. -/
theorem length_stripComments_lt {cs : List Char} (h : StartsComment cs) :
    (stripComments cs).length < cs.length := by
  rcases h with ⟨rest, rfl⟩ | ⟨rest, rfl⟩
  · have le := length_stripFrom_le .lineComment rest
    exact Nat.succ_lt_succ (Nat.lt_succ_of_le le)
  · have le := length_stripFrom_le (.blockComment false) rest
    exact Nat.lt_succ_of_le le

/-- A quoted part ends somewhere, or else it stays as it is up to the end of the text. -/
theorem exists_quoted (mark : Char) (cs : List Char) :
    (∃ body close rest, cs = body ++ close :: rest ∧ Inside mark body ∧
      (close = mark ∨ close = '\n')) ∨ stripFrom (.quoted mark) cs = cs := by
  match cs with
  | [] => exact .inr rfl
  | [c] =>
    right
    rw [stripFrom.eq_7 mark c [] fun _ _ _ same => absurd same (List.cons_ne_nil _ _).symm]
    split <;> rfl
  | c :: d :: cs =>
    by_cases escape : c = '\\'
    · subst escape
      rcases exists_quoted mark cs with ⟨body, close, rest, rfl, inside, closes⟩ | whole
      · exact .inl ⟨'\\' :: d :: body, close, rest, rfl, .escaped d inside, closes⟩
      · exact .inr (by rw [stripFrom_escaped, whole])
    · by_cases closes : c = mark ∨ c = '\n'
      · exact .inl ⟨[], c, d :: cs, rfl, .nil, closes⟩
      · obtain ⟨noMark, noFeed⟩ := not_or.mp closes
        rcases exists_quoted mark (d :: cs) with ⟨body, close, rest, text, inside, closes⟩ | whole
        · rw [text]
          exact .inl ⟨c :: body, close, rest, rfl, .plain noMark noFeed escape inside, closes⟩
        · right
          rw [stripFrom_unescaped escape, if_neg (by simp [noMark, noFeed]), whole]

theorem CommentFree.strip_eq_self {text : List Char} (h : CommentFree text) :
    stripComments text = text := by
  match text with
  | [] => rfl
  | c :: cs =>
    have plain : ¬ StartsComment (c :: cs) := h [] (c :: cs) rfl (.start _)
    rw [stripComments, stripFrom_code plain]
    cases mark : isMark c with
    | false =>
      have later : CommentFree cs := fun before rest text outside =>
        h (c :: before) rest (congrArg (c :: ·) text) (.code mark (text ▸ plain) outside)
      exact congrArg (c :: ·) later.strip_eq_self
    | true =>
      rcases exists_quoted c cs with ⟨body, close, rest, rfl, inside, closes⟩ | whole
      · have later : CommentFree rest := fun before more text outside =>
          h (c :: (body ++ close :: before)) more (by simp [text])
            (.quoted mark inside closes outside)
        rw [if_pos rfl, stripFrom_inside mark inside closes, ← stripComments, later.strip_eq_self]
      · exact congrArg (c :: ·) whole
termination_by text.length

theorem stripComments_eq_self_iff {text : List Char} :
    stripComments text = text ↔ CommentFree text := by
  refine ⟨?_, CommentFree.strip_eq_self⟩
  rintro fixed before rest rfl outside comment
  obtain ⟨front, stripped, -, short⟩ := outside.exists_front
  have longer := length_stripComments_lt comment
  have same : (front ++ stripComments rest).length = (before ++ rest).length := by
    rw [← stripped, fixed]
  rw [List.length_append, List.length_append] at same
  omega

/-- The stripped text has the line feeds of the text, and each place outside quotes and comments
keeps the line that it stands in. Nothing is left to strip in it. A text stays as it is if and only
if no comment begins in it outside quotes, and none does so in a stripped text. -/
theorem stripComments_keeps_lines (text : List Char) :
    (stripComments text).count '\n' = text.count '\n' ∧
    (∀ before rest, text = before ++ rest → Outside before rest →
      ∃ front, stripComments text = front ++ stripComments rest ∧
        front.count '\n' = before.count '\n') ∧
    stripComments (stripComments text) = stripComments text ∧
    (stripComments text = text ↔ CommentFree text) ∧
    CommentFree (stripComments text) := by
  have again : stripComments (stripComments text) = stripComments text :=
    stripFrom_stripFrom .code text
  refine ⟨count_stripFrom .code text, ?lines, again, stripComments_eq_self_iff,
    stripComments_eq_self_iff.mp again⟩
  case lines =>
    rintro before rest rfl outside
    obtain ⟨front, stripped, feeds, -⟩ := outside.exists_front
    exact ⟨front, stripped, feeds⟩

/-- Neither the signs of a comment in quotes nor a mark in a comment count. -/
example : stripComments "a \"//\" /* \"\n */ '\\'' // b\n/*".toList =
    "a \"//\" \n  '\\''  \n ".toList := by
  decide +kernel

end ConstLookup.Include
