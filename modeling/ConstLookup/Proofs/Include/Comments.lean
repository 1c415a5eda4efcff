import ConstLookup.Proofs.Include.CommentFree
import ConstLookup.Proofs.Source.Lines
import ConstLookup.Proofs.Source.LineEnd

/-!
  Sources without comments. The scan for comments leaves a line as it is if no comment begins in it,
  whatever quotes stand there (`uncommented_of_rest`), and so it does with a quoted part that is
  closed in its line (`stripFrom_quoted`). A text of such lines is left as it is
  (`stripComments_joinedLines`).
-/

namespace ConstLookup.Include

open ConstLookup.Text ConstLookup.Source ConstLookup.Source.Lexer

/-- The scan for comments leaves the line as it is, and takes up the next one outside quotes. -/
def Uncommented (line : List Char) : Prop :=
  ∀ next, stripFrom .code (line ++ '\n' :: next) = line ++ '\n' :: stripFrom .code next

/-! ## Parts of a line -/

/-- A part without special characters stays. -/
theorem stripFrom_plain {front : List Char} (h : ∀ c ∈ front, c ∉ special) (rest : List Char) :
    stripFrom .code (front ++ rest) = front ++ stripFrom .code rest := by
  induction front with
  | nil => rfl
  | cons c front ih =>
    obtain ⟨own, others⟩ := List.forall_mem_cons.mp h
    simp only [special, List.mem_cons, List.not_mem_nil, or_false, not_or] at own
    obtain ⟨-, slash, -, double, single⟩ := own
    have code : ¬ StartsComment (c :: (front ++ rest)) := fun comment =>
      slash (startsComment_cons.mp comment).1
    rw [List.cons_append, stripFrom_code code, if_neg (by simp [isMark, double, single]), ih others]
    rfl

/-- The text before the mark that ends a quoted part is inside of the part. -/
theorem inside_of_closed {name : List Char} (line : '\n' ∉ name) (hn : '"' ∉ name)
    (closed : afterQuoted? '"' (name ++ ['"']) = some []) : Inside '"' name := by
  match name with
  | [] => exact .nil
  | [c] =>
    have plain : c ≠ '\\' := by
      rintro rfl
      cases closed
    simp only [List.mem_singleton] at line hn
    exact .plain (Ne.symm hn) (Ne.symm line) plain .nil
  | c :: d :: cs =>
    simp only [List.mem_cons, not_or] at line hn
    by_cases escape : c = '\\'
    · have plain : ∀ more, d = '\r' → cs ++ ['"'] = '\n' :: more → False := by
        rintro more - same
        cases cs with
        | nil => cases same
        | cons e cs => exact line.2.2 ((List.cons.inj same).1 ▸ List.mem_cons_self)
      rw [escape, List.cons_append, List.cons_append, afterQuoted?.eq_4 '"' d _ plain] at closed
      rw [escape]
      exact .escaped d (inside_of_closed line.2.2 hn.2.2 closed)
    · rw [List.cons_append, afterQuoted?.eq_5 '"' c _ (fun same => line.1 same.symm)
        (fun _ same => absurd same escape) (fun _ _ same => absurd same escape),
        if_neg (Ne.symm hn.1)] at closed
      exact .plain (Ne.symm hn.1) (Ne.symm line.1) escape
        (inside_of_closed (by simp [line.2]) (by simp [hn.2]) closed)

/-- A quoted part ends at its mark. -/
theorem stripFrom_quoted {name : List Char} (line : '\n' ∉ name) (hn : '"' ∉ name)
    (closed : afterQuoted? '"' (name ++ ['"']) = some []) (rest : List Char) :
    stripFrom (.quoted '"') (name ++ '"' :: rest) = name ++ '"' :: stripFrom .code rest :=
  stripFrom_inside rfl (inside_of_closed line hn closed) (.inl rfl) rest

/-- A line in which no comment begins stays, whether a quoted part is open before it or not. -/
theorem stripFrom_rest {cs : List Char} (h : IsRest cs) {r : Region}
    (hr : r = .code ∨ ∃ mark, r = .quoted mark) (next : List Char) :
    stripFrom r (cs ++ '\n' :: next) = cs ++ '\n' :: stripFrom .code next := by
  match cs with
  | [] =>
    rcases hr with rfl | ⟨mark, rfl⟩ <;> rfl
  | c :: cs =>
    have rest := h.of_suffix (List.suffix_cons c cs)
    rcases hr with rfl | ⟨mark, rfl⟩
    · have plain := comment_line h.noComment (.line next)
      have code : ¬ StartsComment (c :: (cs ++ '\n' :: next)) := by
        rintro (⟨more, text⟩ | ⟨more, text⟩)
        · exact (plain more).1 text.symm
        · exact (plain more).2 text.symm
      rw [List.cons_append, stripFrom_code code, stripFrom_rest rest]
      · rfl
      · split
        · exact .inr ⟨c, rfl⟩
        · exact .inl rfl
    · by_cases escape : c = '\\'
      · subst escape
        cases cs with
        | nil => exact absurd List.suffix_rfl h.noSplice.1
        | cons d cs =>
          rw [List.cons_append, List.cons_append, stripFrom_escaped,
            stripFrom_rest (rest.of_suffix (List.suffix_cons d cs)) (.inr ⟨mark, rfl⟩)]
          rfl
      · rw [List.cons_append, stripFrom_unescaped escape, stripFrom_rest rest]
        · rfl
        · split
          · exact .inl rfl
          · exact .inr ⟨mark, rfl⟩

/-! ## Lines -/

theorem uncommented_of_rest {line : List Char} (h : IsRest line) : Uncommented line :=
  stripFrom_rest h (.inl rfl)

theorem stripComments_joinedLines {ls : List (List Char)} (h : ∀ l ∈ ls, Uncommented l) :
    stripComments (joinedLines ls) = joinedLines ls := by
  induction ls with
  | nil => rfl
  | cons l ls ih =>
    obtain ⟨own, others⟩ := List.forall_mem_cons.mp h
    have text : joinedLines (l :: ls) = l ++ '\n' :: joinedLines ls := by simp [joinedLines]
    rw [text, stripComments, own, ← stripComments, ih others]

end ConstLookup.Include
