import ConstLookup.Proofs.Expr.Progress

/-!
  Readers take whole groups. In the tokens that a reader takes every parenthesis that is opened
  is closed, and none is closed that was open before (`steps_balance`, by induction on the fuel
  over the six readers). So a group around the cursor ends at the same place before and after.
  Tokens that are read to their end do not close a parenthesis that stands before them, and so
  begin no cast there (`Cursor.Balanced.afterCast_eq_none`).
-/

namespace ConstLookup.Eval

/-! ## Where groups end -/

section AfterClosing

variable {level : Nat} {t : Token} {offset : Nat} {ts rest : List (Token × Nat)}

theorem afterClosing_leftParen :
    afterClosing level ((.mark .leftParen, offset) :: ts) = afterClosing (level + 1) ts := rfl

theorem afterClosing_rightParen :
    afterClosing (level + 1) ((.mark .rightParen, offset) :: ts) = afterClosing level ts := rfl

theorem afterClosing_other (left : t ≠ .mark .leftParen) (right : t ≠ .mark .rightParen) :
    afterClosing level ((t, offset) :: ts) = afterClosing level ts := by
  rw [afterClosing.eq_def]
  split
  · next e => cases e
  · next e => cases e; exact absurd rfl left
  · next e => cases e; exact absurd rfl right
  · next e => cases e; rfl

/-- An outer group ends where it ends after the inner one. -/
theorem afterClosing_outer (h : afterClosing level ts = some rest) (outer : Nat) :
    afterClosing (outer + level + 1) ts = afterClosing outer rest := by
  fun_induction afterClosing level ts with
  | case1 => cases h
  | case2 _ _ _ ih => exact ih h
  | case3 => obtain rfl := Option.some.inj h; rfl
  | case4 _ _ _ ih => exact ih h
  | case5 _ _ _ left right ih =>
    rw [← ih h]
    exact afterClosing_other (fun e => left _ (by rw [← e])) (fun e => right _ (by rw [← e]))

/-- A cast ends its parenthesis. -/
theorem afterClosing_of_afterCast {sawType : Bool} (h : afterCast sawType ts = some rest) :
    afterClosing 0 ts = some rest := by
  fun_induction afterCast sawType ts with
  | case1 _ _ _ _ _ ih => exact ih h
  | case2 => cases h
  | case3 _ _ ih => exact ih h
  | case4 => cases h
  | case5 => exact h
  | case6 => cases h
  | case7 => cases h

end AfterClosing

/-! ## Readers -/

/-- A group around `c` ends where it ends around `d`. -/
def Cursor.Balanced (c d : Cursor) : Prop :=
  ∀ level, afterClosing level c.rest = afterClosing level d.rest

namespace Cursor

variable {c d e : Cursor}

theorem Balanced.refl (c : Cursor) : c.Balanced c := fun _ => rfl

theorem Balanced.trans (h : c.Balanced d) (h' : d.Balanced e) : c.Balanced e :=
  fun level => (h level).trans (h' level)

theorem balanced_advance {t : Token} (h : c.peek? = some t) (left : t ≠ .mark .leftParen)
    (right : t ≠ .mark .rightParen) : c.Balanced c.advance := by
  intro level
  obtain ⟨offset, first⟩ := rest_of_peek? h
  rw [first, afterClosing_other left right]

/-- What is balanced inside of a group is balanced with its parentheses. -/
theorem Balanced.group (left : c.peek? = some (.mark .leftParen)) (h : c.advance.Balanced d)
    (right : d.peek? = some (.mark .rightParen)) : c.Balanced d.advance := by
  intro level
  obtain ⟨_, first⟩ := rest_of_peek? left
  obtain ⟨_, last⟩ := rest_of_peek? right
  rw [first, afterClosing_leftParen, h, last, afterClosing_rightParen]

/-- A group is taken with its parentheses, whatever it holds. -/
theorem balanced_of_closing (left : c.peek? = some (.mark .leftParen))
    {rest : List (Token × Nat)} (closed : afterClosing 0 c.advance.rest = some rest) :
    c.Balanced { c with rest := rest } := by
  intro level
  obtain ⟨_, first⟩ := rest_of_peek? left
  rw [first, afterClosing_leftParen]
  exact afterClosing_outer closed level

end Cursor

/-- Tokens that are whole groups to their end do not begin with the rest of a cast. -/
theorem Cursor.Balanced.afterCast_eq_none {c d : Cursor} (h : c.Balanced d) (finish : d.rest = [])
    (sawType : Bool) : afterCast sawType c.rest = none := by
  cases cast : afterCast sawType c.rest with
  | none => rfl
  | some rest =>
    have closed := h 0
    rw [afterClosing_of_afterCast cast, finish] at closed
    cases closed

/-- When `r` succeeds from `c`, it has taken whole groups. -/
def Balances (c : Cursor) (r : Step) : Prop := ∀ v d, r = .ok (v, d) → c.Balanced d

theorem balances_ok (c : Cursor) (v : Option Number) : Balances c (.ok (v, c)) := by
  rintro v d ⟨⟩
  exact Cursor.Balanced.refl c

theorem balances_error (c : Cursor) (e : EvalError) : Balances c (.error e) := by
  rintro v d ⟨⟩

theorem Balances.after {c d : Cursor} {r : Step} (h : Balances d r) (hd : c.Balanced d) :
    Balances c r := fun v e he => hd.trans (h v e he)

theorem Balances.bind {c : Cursor} {r : Step} {f : Option Number × Cursor → Step}
    (h : Balances c r) (hf : ∀ v d, Balances d (f (v, d))) : Balances c (r >>= f) := by
  intro v e he
  obtain ⟨⟨w, d⟩, hr, hv⟩ := bind_eq_ok.mp he
  exact (h w d hr).trans (hf w d v e hv)

theorem value_balances {α : Type} {x : Except EvalError α} {c : Cursor} {f : α → Option Number} :
    Balances c (x >>= fun a => .ok (f a, c)) := by
  intro v d hd
  obtain ⟨a, -, hd⟩ := bind_eq_ok.mp hd
  obtain ⟨-, rfl⟩ := Prod.mk.inj (Except.ok.inj hd)
  exact Cursor.Balanced.refl c

theorem expect_balances {m : Mark} {c : Cursor} {f : Cursor → Step} (left : m ≠ .leftParen)
    (right : m ≠ .rightParen) (h : Balances c.advance (f c.advance)) :
    Balances c (c.expect m >>= f) := by
  intro v d hd
  obtain ⟨c', hc', hd⟩ := bind_eq_ok.mp hd
  obtain ⟨mark, rfl⟩ := Cursor.expect_eq_ok.mp hc'
  have passed := Cursor.balanced_advance (Cursor.peek?_of_atMark mark)
    (fun e => left (Token.mark.inj e)) (fun e => right (Token.mark.inj e))
  exact passed.trans (h v d hd)

theorem skipGroup_balanced {c d : Cursor} (h : skipGroup c = .ok d) : c.Balanced d := by
  obtain ⟨c', hc', h⟩ := bind_eq_ok.mp h
  obtain ⟨left, rfl⟩ := Cursor.expect_eq_ok.mp hc'
  split at h
  · next rest closed =>
    obtain rfl := Except.ok.inj h
    exact Cursor.balanced_of_closing (Cursor.peek?_of_atMark left) closed
  · cases h

theorem skipArguments_balanced {c d : Cursor} (h : skipArguments c = .ok d) : c.Balanced d := by
  unfold skipArguments at h
  split at h
  · exact skipGroup_balanced h
  · obtain rfl := Except.ok.inj h
    exact Cursor.Balanced.refl c

theorem name_balances (resolve : Resolver) (word : String) (c : Cursor) :
    Balances c (name resolve word c) := by
  intro v d h
  unfold name at h
  split at h
  · obtain ⟨c', hc', h⟩ := bind_eq_ok.mp h
    obtain ⟨-, rfl⟩ := Prod.mk.inj (Except.ok.inj h)
    exact skipGroup_balanced hc'
  · split at h
    · obtain ⟨c', hc', h⟩ := bind_eq_ok.mp h
      obtain ⟨-, rfl⟩ := Prod.mk.inj (Except.ok.inj h)
      exact skipArguments_balanced hc'
    · split at h
      · cases h
      · split at h
        · obtain ⟨-, rfl⟩ := Prod.mk.inj (Except.ok.inj h)
          exact Cursor.Balanced.refl c
        · cases h

theorem skipped_balances {read : Cursor → Step} (h : ∀ c, Balances c (read c)) (c : Cursor) :
    Balances c (skipped read c) := by
  intro v d hd
  obtain ⟨⟨w, e⟩, hr, he⟩ := bind_eq_ok.mp hd
  obtain ⟨-, rfl⟩ := Prod.mk.inj (Except.ok.inj he)
  have taken := h _ w e hr
  exact taken

theorem skippedIf_balances {read : Cursor → Step} (h : ∀ c, Balances c (read c)) (skip : Bool)
    (c : Cursor) : Balances c (skippedIf skip read c) := by
  unfold skippedIf
  split
  · exact skipped_balances h c
  · exact h c

theorem counted_balances {read : Cursor → Step} (h : ∀ c, Balances c (read c)) (c : Cursor) :
    Balances c (counted read c) := by
  intro v e he
  obtain ⟨c', hc', he⟩ := bind_eq_ok.mp he
  obtain ⟨-, rfl⟩ := Cursor.enter_eq_ok.mp hc'
  obtain ⟨⟨w, d⟩, hr, he⟩ := bind_eq_ok.mp he
  obtain ⟨-, rfl⟩ := Prod.mk.inj (Except.ok.inj he)
  have taken := h _ w d hr
  exact taken

section Bodies

variable {inner tight : Cursor → Step}

theorem arms_balances (hi : ∀ c, Balances c (inner c)) (ht : ∀ c, Balances c (tight c))
    (v : Option Number) (c : Cursor) : Balances c (arms inner tight v c) := by
  refine (skippedIf_balances hi _ c).bind fun yes d => ?_
  refine expect_balances nofun nofun ?_
  exact (skippedIf_balances ht _ _).bind fun no e => balances_ok e _

theorem rightOperand_balances (h : ∀ c, Balances c (tight c)) (op : BinaryOp)
    (v : Option Number) (c : Cursor) : Balances c (rightOperand tight op v c) := by
  unfold rightOperand
  split
  · exact (skipped_balances h c).bind fun _ d => balances_ok d _
  · exact (h c).bind fun r d => value_balances

theorem unaryOperand_balances (h : ∀ c, Balances c (tight c)) (op : UnaryOp) (c : Cursor) :
    Balances c (unaryOperand tight op c) := by
  refine (h c).bind fun v d => ?_
  cases v with
  | none => exact balances_ok d _
  | some v => exact value_balances

theorem group_balances (h : ∀ c, Balances c (inner c)) {c : Cursor}
    (left : c.peek? = some (.mark .leftParen)) : Balances c (group inner c.advance) := by
  intro v e he
  obtain ⟨⟨w, d⟩, hr, he⟩ := bind_eq_ok.mp he
  obtain ⟨d', expected, he⟩ := bind_eq_ok.mp he
  obtain ⟨right, rfl⟩ := Cursor.expect_eq_ok.mp expected
  obtain ⟨-, rfl⟩ := Prod.mk.inj (Except.ok.inj he)
  exact (h _ w d hr).group left (Cursor.peek?_of_atMark right)

theorem primary_balances (resolve : Resolver) (hi : ∀ c, Balances c (inner c))
    (ht : ∀ c, Balances c (tight c)) (c : Cursor) :
    Balances c (primary resolve inner tight c) := by
  unfold primary
  split
  · exact balances_error c _
  · next h => exact (balances_ok _ _).after (Cursor.balanced_advance h nofun nofun)
  · next h => exact (balances_ok _ _).after (Cursor.balanced_advance h nofun nofun)
  · next h => exact (name_balances resolve _ _).after (Cursor.balanced_advance h nofun nofun)
  · next left =>
    split
    · next rest cast =>
      exact (ht _).after (Cursor.balanced_of_closing left (afterClosing_of_afterCast cast))
    · exact group_balances hi left
  · next m left h =>
    split
    · next op hop =>
      refine (unaryOperand_balances ht op _).after (Cursor.balanced_advance h ?_ ?_)
      · rintro ⟨⟩
        cases hop
      · rintro ⟨⟩
        cases hop
    · exact balances_error c _

end Bodies

/-! ## All readers -/

/-- With `fuel` every reader takes whole groups. -/
structure Balance (resolve : Resolver) (fuel : Nat) : Prop where
  sequence : ∀ c, Balances c (sequence resolve fuel c)
  sequenceTail : ∀ v c, Balances c (sequenceTail resolve fuel v c)
  expression : ∀ level c, Balances c (expression resolve fuel level c)
  operands : ∀ v c, Balances c (operands resolve fuel v c)
  operators : ∀ level v c, Balances c (operators resolve fuel level v c)
  operand : ∀ c, Balances c (operand resolve fuel c)

theorem steps_balance (resolve : Resolver) (fuel : Nat) : Balance resolve fuel := by
  induction fuel with
  | zero => constructor <;> intros <;> exact balances_error _ _
  | succ fuel ih =>
    constructor
    case sequence =>
      intro c
      rw [Eval.sequence]
      exact (ih.expression _ c).bind ih.sequenceTail
    case sequenceTail =>
      intro v c
      rw [Eval.sequenceTail]
      split
      · next h =>
        refine Balances.after ?_
          (Cursor.balanced_advance (Cursor.peek?_of_atMark h) (by simp) (by simp))
        exact (ih.expression _ _).bind ih.sequenceTail
      · exact balances_ok c v
    case expression =>
      intro level c
      rw [Eval.expression]
      refine counted_balances (fun c => ?_) c
      exact (ih.operand c).bind fun v d => (ih.operands v d).bind (ih.operators level)
    case operands =>
      intro v c
      rw [Eval.operands]
      split
      · exact (ih.operand c).bind ih.operands
      · exact balances_ok c v
    case operators =>
      intro level v c
      rw [Eval.operators]
      split
      · next h =>
        split
        · exact (ih.operators level v _).after (Cursor.balanced_advance h (by simp) (by simp))
        · exact balances_ok c v
      · next h =>
        split
        · refine Balances.after ?_ (Cursor.balanced_advance h (by simp) (by simp))
          exact (arms_balances ih.sequence (ih.expression _) v _).bind (ih.operators level)
        · exact balances_ok c v
      · next m _ h =>
        split
        · exact balances_ok c v
        · next op hop =>
          split
          · exact balances_ok c v
          · refine Balances.after ?_ (Cursor.balanced_advance h ?_ ?_)
            · exact (rightOperand_balances (ih.expression _) op v _).bind (ih.operators level)
            · rintro ⟨⟩
              cases hop
            · rintro ⟨⟩
              cases hop
      · exact balances_ok c v
    case operand =>
      intro c
      rw [Eval.operand]
      exact counted_balances (primary_balances resolve ih.sequence (ih.expression _)) c

end ConstLookup.Eval
