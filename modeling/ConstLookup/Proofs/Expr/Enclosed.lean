import ConstLookup.Proofs.Expr.Shielding

/-!
  What stands in parentheses is split into tokens as it is alone (`tokens_enclosed`).

  A parenthesis ends every token before it and begins one of its own, and it ends the word of a
  hexadecimal literal. So the tokens of a text up to a parenthesis do not depend on what comes
  after (`Scans.of_tokensFrom`), and neither do the marks of its literals (`shieldFrom_append`).
-/

namespace ConstLookup

open ConstLookup.Text

/-- The text ends or goes on with a parenthesis. -/
def Delimited (rest : List Char) : Prop := ∀ c ∈ rest.head?, c = '(' ∨ c = ')'

section Delimited

variable {rest : List Char}

/-- What holds for both parentheses. -/
theorem Delimited.head {p : Char → Prop} (h : Delimited rest) (left : p '(') (right : p ')') :
    ∀ c ∈ rest.head?, p c := by
  intro c hc
  rcases h c hc with rfl | rfl
  · exact left
  · exact right

/-- What stops inside of a text does not depend on what comes after it. -/
theorem span_append {p : Char → Bool} {cs after : List Char} {c : Char}
    (stops : cs.dropWhile p = c :: after) (rest : List Char) :
    (cs ++ rest).takeWhile p = cs.takeWhile p ∧
      (cs ++ rest).dropWhile p = c :: (after ++ rest) := by
  induction cs with
  | nil => cases stops
  | cons a cs ih =>
    simp only [List.cons_append, List.takeWhile_cons, List.dropWhile_cons] at stops ⊢
    split
    · next ha =>
      rw [if_pos ha] at stops
      obtain ⟨taken, dropped⟩ := ih stops
      exact ⟨congrArg (a :: ·) taken, dropped⟩
    · next ha =>
      rw [if_neg ha] at stops
      obtain ⟨rfl, rfl⟩ := List.cons.inj stops
      exact ⟨rfl, rfl⟩

end Delimited

namespace Lexer

/-! ## One token -/

theorem numberToken_offset {offset : Nat} {text : List Char} {t : Token}
    (h : numberToken offset text = .ok t) (offset' : Nat) : numberToken offset' text = .ok t := by
  unfold numberToken at h ⊢
  dsimp only at h ⊢
  split
  · next float =>
    rw [if_pos float] at h
    split at h
    · exact h
    · cases h
  · next int =>
    rw [if_neg int] at h
    split at h
    · exact h
    · cases h

theorem characterValue_offset {offset : Nat} {body : List Char} {v : Int}
    (h : characterValue offset body = .ok v) (offset' : Nat) :
    characterValue offset' body = .ok v := by
  unfold characterValue at h ⊢
  dsimp only at h ⊢
  split at h
  case h_10 | h_11 =>
    split at h
    · exact h
    · cases h
  case h_13 => cases h
  all_goals exact h

/-! ## What a token leaves -/

section Suffix

variable {offset : Nat} {c : Char} {cs after : List Char} {t : Token}

theorem numberSpan_suffix (binary : Bool) (previous : Char) :
    (numberSpan binary previous cs).2 <:+ cs := by
  induction cs generalizing previous with
  | nil => exact List.suffix_refl []
  | cons c cs ih =>
    rw [numberSpan]
    dsimp only
    split
    · exact (ih c).trans (List.suffix_cons c cs)
    · exact List.suffix_refl _

theorem mark?_suffix {m : Mark} (h : mark? (c :: cs) = some (m, after)) : after <:+ cs := by
  obtain ⟨n, -, found⟩ := List.exists_of_findSome?_eq_some h
  have text : ∃ a as, n.text.toList = a :: as := by cases n <;> exact ⟨_, _, rfl⟩
  obtain ⟨a, as, text⟩ := text
  split at found
  · obtain ⟨-, rfl⟩ := Prod.mk.inj (Option.some.inj found)
    rw [text]
    exact List.drop_suffix _ cs
  · cases found

theorem hexLiteral_suffix (h : hexLiteral offset cs = .ok (t, after)) : after <:+ cs := by
  unfold hexLiteral at h
  dsimp only at h
  split at h
  · cases h
  · next quote rest closing =>
    split at h
    · cases h
    · obtain ⟨_, -, h⟩ := Eval.bind_eq_ok.mp h
      obtain ⟨-, rfl⟩ := Prod.mk.inj (Except.ok.inj h)
      have rest_suffix := (List.suffix_cons quote rest).trans (closing ▸ List.dropWhile_suffix _)
      exact (List.dropWhile_suffix _).trans rest_suffix

theorem characterLiteral_suffix (h : characterLiteral offset cs = .ok (t, after)) :
    after <:+ cs := by
  unfold characterLiteral at h
  split at h
  · cases h
  · next quote rest closing =>
    obtain ⟨_, -, h⟩ := Eval.map_eq_ok.mp h
    obtain ⟨-, rfl⟩ := Prod.mk.inj h
    exact (List.suffix_cons quote rest).trans (closing ▸ List.dropWhile_suffix _)

/-- A token takes at least the first character. -/
theorem nextToken_suffix (h : nextToken offset c cs = .ok (t, after)) : after <:+ cs := by
  unfold nextToken at h
  split at h
  · exact (hexLiteral_suffix h).trans (List.drop_suffix 2 cs)
  split at h
  · obtain ⟨_, -, h⟩ := Eval.map_eq_ok.mp h
    obtain ⟨-, rfl⟩ := Prod.mk.inj h
    exact numberSpan_suffix _ c
  split at h
  · exact characterLiteral_suffix h
  split at h
  · cases h
  split at h
  · obtain ⟨-, rfl⟩ := Prod.mk.inj (Except.ok.inj h)
    exact List.dropWhile_suffix _
  split at h
  · next m rest found =>
    obtain ⟨-, rfl⟩ := Prod.mk.inj (Except.ok.inj h)
    exact mark?_suffix found
  · cases h

end Suffix

/-! ## A token before a parenthesis -/

section Delimited

variable {rest : List Char} {offset : Nat} {c : Char} {cs after : List Char} {t : Token}

theorem hexLiteral_append (h : Delimited rest) (read : hexLiteral offset cs = .ok (t, after))
    (offset' : Nat) : hexLiteral offset' (cs ++ rest) = .ok (t, after ++ rest) := by
  unfold hexLiteral at read ⊢
  dsimp only at read ⊢
  split at read
  · cases read
  · next quote digits closing =>
    obtain ⟨taken, dropped⟩ := span_append closing rest
    rw [taken, dropped]
    dsimp only
    split at read
    · cases read
    · obtain ⟨t', ht, read⟩ := Eval.bind_eq_ok.mp read
      obtain ⟨rfl, rfl⟩ := Prod.mk.inj (Except.ok.inj read)
      have suffix := dropWhile_append_stop (p := isIntSuffixLetter)
        (h.head (p := fun c => isIntSuffixLetter c = false) (by decide) (by decide)) digits
      rw [ht, suffix]
      rfl

theorem characterLiteral_append (read : characterLiteral offset cs = .ok (t, after))
    (offset' : Nat) : characterLiteral offset' (cs ++ rest) = .ok (t, after ++ rest) := by
  unfold characterLiteral at read ⊢
  split at read
  · cases read
  · next quote later closing =>
    obtain ⟨taken, dropped⟩ := span_append closing rest
    rw [taken, dropped]
    obtain ⟨v, value, read⟩ := Eval.map_eq_ok.mp read
    obtain ⟨rfl, rfl⟩ := Prod.mk.inj read
    rw [characterValue_offset value]
    rfl

theorem numberSpan_append (h : Delimited rest) (binary : Bool) (previous : Char) :
    numberSpan binary previous (cs ++ rest) =
      ((numberSpan binary previous cs).1, (numberSpan binary previous cs).2 ++ rest) := by
  induction cs generalizing previous with
  | nil =>
    cases rest with
    | nil => rfl
    | cons d rest =>
      have stops : isIdentPart d = false ∧ d ≠ '.' ∧ d ≠ '+' ∧ d ≠ '-' :=
        h.head (p := fun d => isIdentPart d = false ∧ d ≠ '.' ∧ d ≠ '+' ∧ d ≠ '-') (by decide)
          (by decide) d rfl
      simp [numberSpan, stops]
  | cons c cs ih =>
    simp only [List.cons_append, numberSpan]
    split
    · rw [ih]
    · rfl

/-- No mark goes on with a parenthesis. -/
theorem mark?_delimited (h : Delimited rest) :
    mark? (c :: cs ++ rest) = (mark? (c :: cs)).map fun p => (p.1, p.2 ++ rest) := by
  refine mark?_append (l := c :: cs) fun m => ?_
  have text : ∃ a as, m.text.toList = a :: as ∧ '(' ∉ as ∧ ')' ∉ as := by
    cases m <;> exact ⟨_, _, rfl, by decide⟩
  obtain ⟨a, as, text, left, right⟩ := text
  rw [text, List.cons_append, List.isPrefixOf, List.isPrefixOf,
    isPrefixOf_append (h.head (p := (· ∉ as)) left right)]

theorem startsBinary_eq (cs : List Char) : startsBinary cs = ['0', 'b'].isPrefixOf cs := by
  unfold startsBinary
  split
  · rfl
  · next other =>
    refine (Bool.eq_false_iff.mpr fun front => ?_).symm
    obtain ⟨digits, same⟩ := List.isPrefixOf_iff_prefix.mp front
    exact other digits same.symm

theorem startsHex_eq (cs : List Char) :
    startsHex cs = (['0', 'x', '\''].isPrefixOf cs || ['0', 'X', '\''].isPrefixOf cs) := by
  unfold startsHex
  split
  · next x digits =>
    simp [List.isPrefixOf, beq_eq_decide, eq_comm]
  · next other =>
    refine (Bool.eq_false_iff.mpr fun front => ?_).symm
    rcases Bool.or_eq_true_iff.mp front with front | front <;>
      obtain ⟨digits, same⟩ := List.isPrefixOf_iff_prefix.mp front
    · exact other 'x' digits same.symm
    · exact other 'X' digits same.symm

theorem startsBinary_append (h : Delimited rest) (cs : List Char) :
    startsBinary (cs ++ rest) = startsBinary cs := by
  rw [startsBinary_eq, startsBinary_eq,
    isPrefixOf_append (h.head (p := (· ∉ ['0', 'b'])) (by decide) (by decide))]

theorem startsHex_append (h : Delimited rest) (cs : List Char) :
    startsHex (cs ++ rest) = startsHex cs := by
  rw [startsHex_eq, startsHex_eq,
    isPrefixOf_append (h.head (p := (· ∉ ['0', 'x', '\''])) (by decide) (by decide)),
    isPrefixOf_append (h.head (p := (· ∉ ['0', 'X', '\''])) (by decide) (by decide))]

theorem two_le_of_startsHex (hex : startsHex (c :: cs) = true) : 2 ≤ cs.length := by
  unfold startsHex at hex
  split at hex
  · next e =>
    obtain ⟨-, rfl⟩ := List.cons.inj e
    simp
  · cases hex

theorem number_append (h : Delimited rest) (read : number offset c cs = .ok (t, after))
    (offset' : Nat) : number offset' c (cs ++ rest) = .ok (t, after ++ rest) := by
  obtain ⟨t', value, read⟩ := Eval.map_eq_ok.mp read
  obtain ⟨rfl, rfl⟩ := Prod.mk.inj read
  unfold number
  rw [← List.cons_append, startsBinary_append h, numberSpan_append h]
  dsimp only
  rw [numberToken_offset value]
  rfl

/-- A token before a parenthesis is the token at the end of the text. -/
theorem nextToken_append (h : Delimited rest) (next : nextToken offset c cs = .ok (t, after))
    (offset' : Nat) : nextToken offset' c (cs ++ rest) = .ok (t, after ++ rest) := by
  have digit : ((cs ++ rest).head?.map isDigit).getD false = (cs.head?.map isDigit).getD false := by
    cases cs with
    | nil =>
      cases rest with
      | nil => rfl
      | cons d rest => exact h.head (p := fun d => isDigit d = false) (by decide) (by decide) d rfl
    | cons d cs => rfl
  have stops := h.head (p := fun d => isIdentPart d = false) (by decide) (by decide)
  unfold nextToken at next ⊢
  rw [← List.cons_append, startsHex_append h, digit]
  by_cases hex : startsHex (c :: cs) = true
  · rw [if_pos hex] at next ⊢
    rw [List.drop_append_of_le_length (two_le_of_startsHex hex)]
    exact hexLiteral_append h next offset'
  rw [if_neg hex] at next ⊢
  by_cases digits : (isDigit c || (c = '.' && (cs.head?.map isDigit).getD false)) = true
  · rw [if_pos digits] at next ⊢
    exact number_append h next offset'
  rw [if_neg digits] at next ⊢
  by_cases quote : c = '\''
  · rw [if_pos quote] at next ⊢
    exact characterLiteral_append next offset'
  rw [if_neg quote] at next ⊢
  by_cases string : c = '"'
  · rw [if_pos string] at next
    cases next
  rw [if_neg string] at next ⊢
  by_cases ident : isIdentStart c = true
  · rw [if_pos ident] at next ⊢
    obtain ⟨rfl, rfl⟩ := Prod.mk.inj (Except.ok.inj next)
    rw [takeWhile_append_stop stops, dropWhile_append_stop stops]
  rw [if_neg ident] at next ⊢
  rw [mark?_delimited h]
  split at next
  · next m later found =>
    obtain ⟨rfl, rfl⟩ := Prod.mk.inj (Except.ok.inj next)
    rw [found]
    rfl
  · cases next

end Delimited

/-! ## Texts of tokens -/

/-- The text before `rest` is read as the tokens `ts`, whatever its offset. -/
inductive Scans : List Char → List Token → List Char → Prop
  | done (rest : List Char) : Scans rest [] rest
  | blank {c : Char} {cs rest : List Char} {ts : List Token} (blank : isAsciiBlank c = true)
      (scan : Scans cs ts rest) : Scans (c :: cs) ts rest
  | token {c : Char} {cs after rest : List Char} {t : Token} {ts : List Token}
      (blank : isAsciiBlank c = false) (next : ∀ offset, nextToken offset c cs = .ok (t, after))
      (scan : Scans after ts rest) : Scans (c :: cs) (t :: ts) rest

namespace Scans

variable {cs rest : List Char} {ts us : List Token}

theorem append {after : List Char} (h : Scans cs ts after) (h' : Scans after us rest) :
    Scans cs (ts ++ us) rest := by
  induction h with
  | done => exact h'
  | blank blank _ ih => exact .blank blank (ih h')
  | token blank next _ ih => exact .token blank next (ih h')

/-- The lexer finds the tokens. -/
theorem tokensFrom (h : Scans cs ts []) {steps : Nat} (enough : cs.length ≤ steps)
    (offset : Nat) : ∃ l, tokensFrom steps offset cs = .ok l ∧ l.map Prod.fst = ts := by
  generalize hrest : ([] : List Char) = rest at h
  induction h generalizing steps offset with
  | done rest =>
    subst hrest
    exact ⟨[], tokensFrom_nil steps offset, rfl⟩
  | @blank c cs rest ts blank _ ih =>
    obtain ⟨steps', offset', enough', moved⟩ :=
      tokensFrom_blanks (List.forall_mem_singleton.mpr blank) enough offset
    obtain ⟨l, hl, same⟩ := ih enough' offset' hrest
    exact ⟨l, moved.trans hl, same⟩
  | @token c cs after rest t ts blank next _ ih =>
    obtain ⟨steps', offset', enough', moved⟩ := tokensFrom_next blank
      (nextToken_suffix (next offset)).length_le enough (next offset)
    obtain ⟨l, hl, same⟩ := ih enough' offset' hrest
    rw [hl] at moved
    exact ⟨(t, offset) :: l, moved, congrArg (t :: ·) same⟩

/-- The tokens that the lexer finds are there with a parenthesis after them. -/
theorem of_tokensFrom (delimited : Delimited rest) {steps offset : Nat} {l : List (Token × Nat)}
    (h : Lexer.tokensFrom steps offset cs = .ok l) (enough : cs.length ≤ steps) :
    Scans (cs ++ rest) (l.map Prod.fst) rest := by
  induction steps generalizing offset cs l with
  | zero =>
    obtain rfl := List.eq_nil_of_length_eq_zero (Nat.le_zero.mp enough)
    obtain rfl := Except.ok.inj h
    exact .done rest
  | succ steps ih =>
    cases cs with
    | nil =>
      obtain rfl := Except.ok.inj h
      exact .done rest
    | cons c cs =>
      have enough' : cs.length ≤ steps := Nat.le_of_succ_le_succ enough
      rw [Lexer.tokensFrom] at h
      split at h
      · next blank => exact .blank blank (ih h enough')
      · next blank =>
        obtain ⟨⟨t, after⟩, next, h⟩ := Eval.bind_eq_ok.mp h
        obtain ⟨l', hl, h⟩ := Eval.bind_eq_ok.mp h
        obtain rfl := Except.ok.inj h
        have shorter := Nat.le_trans (nextToken_suffix next).length_le enough'
        exact .token (Bool.eq_false_iff.mpr blank) (nextToken_append delimited next)
          (ih hl shorter)

theorem of_tokens (delimited : Delimited rest) {l : List (Token × Nat)} (h : tokens cs = .ok l) :
    Scans (cs ++ rest) (l.map Prod.fst) rest := of_tokensFrom delimited h (Nat.le_refl _)

theorem leftParen (h : Scans cs ts rest) : Scans ('(' :: cs) (.mark .leftParen :: ts) rest :=
  .token rfl (fun _ => rfl) h

theorem rightParen (h : Scans cs ts rest) : Scans (')' :: cs) (.mark .rightParen :: ts) rest :=
  .token rfl (fun _ => rfl) h

end Scans

end Lexer

/-! ## Hexadecimal literals -/

namespace HexShield

/-- A parenthesis belongs to no literal and to no word. -/
theorem shieldFrom_append {rest : List Char} (h : Delimited rest) (inWord : Bool)
    (cs : List Char) : shieldFrom inWord (cs ++ rest) =
      shieldFrom inWord cs ++ shieldFrom false rest := by
  have digits : ∀ c ∈ rest.head?, isHexDigit c = false := h.head (by decide) (by decide)
  fun_induction shieldFrom inWord cs with
  | case1 inWord =>
    cases rest with
    | nil => rw [List.nil_append, shieldFrom, shieldFrom]; rfl
    | cons d rest =>
      have zero : d ≠ '0' := h.head (p := (· ≠ '0')) (by decide) (by decide) d rfl
      rw [List.nil_append, List.nil_append, shieldFrom_cons (.inr (.inl zero)),
        shieldFrom_cons (.inr (.inl zero))]
  | case2 inWord x cs literal ih =>
    have same := takeWhile_append_stop digits cs
    rw [List.cons_append, List.cons_append, shieldFrom, same, if_pos literal,
      dropWhile_append_stop digits, ih]
    simp only [List.cons_append, List.append_assoc]
  | case3 inWord x cs plain ih =>
    have same := takeWhile_append_stop digits cs
    rw [List.cons_append, List.cons_append, shieldFrom, same, if_neg plain, ← List.cons_append, ih]
    rfl
  | case4 inWord c cs other ih =>
    rw [List.cons_append, shieldFrom_cons, ih]
    · rfl
    · refine .inr ((ne_zero_or_nil other).imp_right ?_)
      rintro rfl
      exact h.head (p := fun x => x ≠ 'x' ∧ x ≠ 'X') (by decide) (by decide)

theorem shieldFrom_parenthesis {c : Char} (h : c = '(' ∨ c = ')') (cs : List Char) :
    shieldFrom false (c :: cs) = c :: shieldFrom false cs := by
  rcases h with rfl | rfl <;> exact shieldFrom_cons (.inr (.inl (by decide)))

end HexShield

/-! ## A text in parentheses -/

/-- The tokens of a text in parentheses between two other texts are the tokens of the three and
the parentheses. -/
theorem tokens_enclosed {front inner back : List Char} {fs ts bs : List (Token × Nat)}
    (hf : Lexer.tokens (HexShield.shieldFrom false front) = .ok fs)
    (ht : Lexer.tokens (HexShield.shieldFrom false inner) = .ok ts)
    (hb : Lexer.tokens (HexShield.shieldFrom false back) = .ok bs) :
    ∃ l, Lexer.tokens (HexShield.shieldFrom false (front ++ '(' :: (inner ++ ')' :: back))) =
        .ok l ∧
      l.map Prod.fst = fs.map Prod.fst ++ .mark .leftParen ::
        (ts.map Prod.fst ++ .mark .rightParen :: bs.map Prod.fst) := by
  have left (cs : List Char) : Delimited ('(' :: cs) := by
    rintro _ ⟨⟩
    exact .inl rfl
  have right (cs : List Char) : Delimited (')' :: cs) := by
    rintro _ ⟨⟩
    exact .inr rfl
  rw [HexShield.shieldFrom_append (left _), HexShield.shieldFrom_parenthesis (.inl rfl),
    HexShield.shieldFrom_append (right _), HexShield.shieldFrom_parenthesis (.inr rfl)]
  have last : Lexer.Scans (HexShield.shieldFrom false back) (bs.map Prod.fst) [] := by
    have finish : Delimited [] := nofun
    rw [← List.append_nil (HexShield.shieldFrom false back)]
    exact Lexer.Scans.of_tokens finish hb
  have middle := (Lexer.Scans.of_tokens (right _) ht).append last.rightParen
  have whole := (Lexer.Scans.of_tokens (left _) hf).append middle.leftParen
  exact whole.tokensFrom (Nat.le_refl _) 0

end ConstLookup
