import ConstLookup.Expr.Evaluate

/-!
  What a reader of the expression grammar leaves when it succeeds: the cursor stands further on
  in the same tokens, with as many operands open as before and with the same `skipping`
  (`steps_progress`, by induction on the fuel over the six readers together). A reader of an
  expression or of an operand has taken at least one token.
-/

namespace ConstLookup.Eval

theorem bind_eq_ok {α β : Type} {x : Except EvalError α} {f : α → Except EvalError β} {b : β} :
    (x >>= f) = .ok b ↔ ∃ a, x = .ok a ∧ f a = .ok b := by
  cases x with
  | error e => simp [bind, Except.bind]
  | ok a => simp [bind, Except.bind]

theorem map_eq_ok {α β : Type} {x : Except EvalError α} {f : α → β} {b : β} :
    x.map f = .ok b ↔ ∃ a, x = .ok a ∧ f a = b := by
  cases x with
  | error e => simp [Except.map]
  | ok a => simp [Except.map]

/-! ## Cursors -/

/-- `d` stands in the tokens of `c`, at the same place or further on, and counts and skips as
`c` does. -/
structure Cursor.Reaches (c d : Cursor) : Prop where
  rest : d.rest <:+ c.rest
  finish : d.finish = c.finish
  depth : d.depth = c.depth
  skipping : d.skipping = c.skipping

namespace Cursor

variable {c d e : Cursor}

theorem Reaches.refl (c : Cursor) : c.Reaches c := ⟨List.suffix_refl _, rfl, rfl, rfl⟩

theorem Reaches.trans (h : c.Reaches d) (h' : d.Reaches e) : c.Reaches e :=
  ⟨h'.rest.trans h.rest, h'.finish.trans h.finish, h'.depth.trans h.depth,
    h'.skipping.trans h.skipping⟩

theorem Reaches.length_le (h : c.Reaches d) : d.rest.length ≤ c.rest.length := h.rest.length_le

theorem reaches_advance (c : Cursor) : c.Reaches c.advance :=
  ⟨List.tail_suffix _, rfl, rfl, rfl⟩

theorem rest_of_peek? {t : Token} (h : c.peek? = some t) :
    ∃ offset, c.rest = (t, offset) :: c.advance.rest := by
  obtain ⟨rest, finish, depth, skipping⟩ := c
  cases rest with
  | nil => cases h
  | cons first rest =>
    obtain ⟨t', offset⟩ := first
    obtain rfl : t' = t := Option.some.inj h
    exact ⟨offset, rfl⟩

theorem length_advance_lt {t : Token} (h : c.peek? = some t) :
    c.advance.rest.length < c.rest.length := by
  cases hr : c.rest with
  | nil => simp [peek?, hr] at h
  | cons a r => simp [advance, hr]

theorem peek?_of_atMark {m : Mark} (h : c.atMark m = true) : c.peek? = some (.mark m) := by
  unfold atMark at h
  match hp : c.peek? with
  | none => simp [hp] at h
  | some (.mark n) => simp [hp, Token.isMark] at h; rw [h]
  | some (.int v) => simp [hp, Token.isMark] at h
  | some (.float v) => simp [hp, Token.isMark] at h
  | some (.ident w) => simp [hp, Token.isMark] at h

theorem expect_eq_ok {m : Mark} : c.expect m = .ok d ↔ c.atMark m = true ∧ d = c.advance := by
  unfold expect
  split
  · next h => simp [h, eq_comm]
  · next h => simp [h]

theorem enter_eq_ok :
    c.enter = .ok d ↔ c.depth < maxDepth ∧ d = { c with depth := c.depth + 1 } := by
  unfold enter
  split
  · next h => simp [h, eq_comm]
  · next h => simp [h]

/-- Closing the operand that was opened restores the count. -/
theorem Reaches.leave (h : ({ c with depth := c.depth + 1 } : Cursor).Reaches d) :
    c.Reaches d.leave :=
  ⟨h.rest, h.finish, by simp [Cursor.leave, h.depth], h.skipping⟩

end Cursor

/-! ## Groups and casts -/

theorem afterClosing_suffix {level : Nat} {ts rest : List (Token × Nat)}
    (h : afterClosing level ts = some rest) : rest <:+ ts := by
  fun_induction afterClosing level ts with
  | case1 => simp at h
  | case2 _ _ _ ih => exact (ih h).trans (List.suffix_cons _ _)
  | case3 => obtain rfl := Option.some.inj h; exact List.suffix_cons _ _
  | case4 _ _ _ ih => exact (ih h).trans (List.suffix_cons _ _)
  | case5 _ _ _ _ _ ih => exact (ih h).trans (List.suffix_cons _ _)

theorem afterCast_suffix {sawType : Bool} {ts rest : List (Token × Nat)}
    (h : afterCast sawType ts = some rest) : rest <:+ ts := by
  fun_induction afterCast sawType ts with
  | case1 _ _ _ _ _ ih => exact (ih h).trans (List.suffix_cons _ _)
  | case2 => simp at h
  | case3 _ _ ih => exact (ih h).trans (List.suffix_cons _ _)
  | case4 => simp at h
  | case5 => obtain rfl := Option.some.inj h; exact List.suffix_cons _ _
  | case6 => simp at h
  | case7 => simp at h

/-! ## Readers -/

/-- When `r` succeeds from `c`, it stands at `c` or further on. -/
def Keeps (c : Cursor) (r : Step) : Prop := ∀ v d, r = .ok (v, d) → c.Reaches d

/-- When `r` succeeds from `c`, it has taken a token. -/
def Advances (c : Cursor) (r : Step) : Prop :=
  ∀ v d, r = .ok (v, d) → c.Reaches d ∧ d.rest.length < c.rest.length

theorem Advances.keeps {c : Cursor} {r : Step} (h : Advances c r) : Keeps c r :=
  fun v d e => (h v d e).1

theorem keeps_ok (c : Cursor) (v : Option Number) : Keeps c (.ok (v, c)) := by
  rintro v d ⟨⟩
  exact Cursor.Reaches.refl c

theorem keeps_error (c : Cursor) (e : EvalError) : Keeps c (.error e) := by
  rintro v d ⟨⟩

theorem advances_error (c : Cursor) (e : EvalError) : Advances c (.error e) := by
  rintro v d ⟨⟩

theorem Keeps.advances {c d : Cursor} {r : Step} (h : Keeps d r) (hr : c.Reaches d)
    (hl : d.rest.length < c.rest.length) : Advances c r :=
  fun v e he => ⟨hr.trans (h v e he), Nat.lt_of_le_of_lt (h v e he).length_le hl⟩

/-- What is read after a first token. -/
theorem Keeps.advances_of_peek? {c : Cursor} {r : Step} {t : Token} (h : Keeps c.advance r)
    (hp : c.peek? = some t) : Advances c r :=
  h.advances c.reaches_advance (Cursor.length_advance_lt hp)

theorem Keeps.bind {c : Cursor} {r : Step} {f : Option Number × Cursor → Step} (h : Keeps c r)
    (hf : ∀ v d, c.Reaches d → Keeps d (f (v, d))) : Keeps c (r >>= f) := by
  intro v e he
  obtain ⟨⟨w, d⟩, hr, hv⟩ := bind_eq_ok.mp he
  exact (h w d hr).trans (hf w d (h w d hr) v e hv)

theorem Advances.bind {c : Cursor} {r : Step} {f : Option Number × Cursor → Step}
    (h : Advances c r) (hf : ∀ v d, c.Reaches d → Keeps d (f (v, d))) : Advances c (r >>= f) := by
  intro v e he
  obtain ⟨⟨w, d⟩, hr, hv⟩ := bind_eq_ok.mp he
  obtain ⟨hd, hl⟩ := h w d hr
  have hk := hf w d hd v e hv
  exact ⟨hd.trans hk, Nat.lt_of_le_of_lt hk.length_le hl⟩

theorem skipGroup_reaches {c d : Cursor} (h : skipGroup c = .ok d) : c.Reaches d := by
  obtain ⟨c', hc', h⟩ := bind_eq_ok.mp h
  obtain ⟨-, rfl⟩ := Cursor.expect_eq_ok.mp hc'
  split at h
  · next rest hrest =>
    obtain rfl := Except.ok.inj h
    exact c.reaches_advance.trans ⟨afterClosing_suffix hrest, rfl, rfl, rfl⟩
  · cases h

theorem skipArguments_reaches {c d : Cursor} (h : skipArguments c = .ok d) : c.Reaches d := by
  unfold skipArguments at h
  split at h
  · exact skipGroup_reaches h
  · obtain rfl := Except.ok.inj h
    exact Cursor.Reaches.refl c

theorem name_keeps (resolve : Resolver) (word : String) (c : Cursor) :
    Keeps c (name resolve word c) := by
  intro v d h
  unfold name at h
  split at h
  · obtain ⟨c', hc', h⟩ := bind_eq_ok.mp h
    obtain ⟨-, rfl⟩ := Prod.mk.inj (Except.ok.inj h)
    exact skipGroup_reaches hc'
  · split at h
    · obtain ⟨c', hc', h⟩ := bind_eq_ok.mp h
      obtain ⟨-, rfl⟩ := Prod.mk.inj (Except.ok.inj h)
      exact skipArguments_reaches hc'
    · split at h
      · cases h
      · split at h
        · obtain ⟨-, rfl⟩ := Prod.mk.inj (Except.ok.inj h)
          exact Cursor.Reaches.refl c
        · cases h

theorem skippedIf_keeps {read : Cursor → Step} (h : ∀ c, Keeps c (read c)) (skip : Bool)
    (c : Cursor) : Keeps c (skippedIf skip read c) := by
  unfold skippedIf
  split
  · intro v d hd
    obtain ⟨⟨w, e⟩, hr, he⟩ := bind_eq_ok.mp hd
    obtain ⟨-, rfl⟩ := Prod.mk.inj (Except.ok.inj he)
    have hk := h _ w e hr
    exact ⟨hk.rest, hk.finish, hk.depth, rfl⟩
  · exact h c

theorem skipped_keeps {read : Cursor → Step} (h : ∀ c, Keeps c (read c)) (c : Cursor) :
    Keeps c (skipped read c) := skippedIf_keeps h true c

theorem skipped_advances {read : Cursor → Step} (h : ∀ c, Advances c (read c)) (c : Cursor) :
    Advances c (skipped read c) := by
  intro v d hd
  obtain ⟨⟨w, e⟩, hr, he⟩ := bind_eq_ok.mp hd
  obtain ⟨-, rfl⟩ := Prod.mk.inj (Except.ok.inj he)
  obtain ⟨reaches, taken⟩ := h _ w e hr
  exact ⟨⟨reaches.rest, reaches.finish, reaches.depth, rfl⟩, taken⟩

theorem expect_keeps {m : Mark} {c : Cursor} {f : Cursor → Step}
    (h : Keeps c.advance (f c.advance)) : Keeps c (c.expect m >>= f) := by
  intro v d hd
  obtain ⟨c', hc', hd⟩ := bind_eq_ok.mp hd
  obtain ⟨-, rfl⟩ := Cursor.expect_eq_ok.mp hc'
  exact c.reaches_advance.trans (h v d hd)

theorem value_keeps {α : Type} {x : Except EvalError α} {c : Cursor} {f : α → Option Number} :
    Keeps c (x >>= fun a => .ok (f a, c)) := by
  intro v d hd
  obtain ⟨a, -, hd⟩ := bind_eq_ok.mp hd
  obtain ⟨-, rfl⟩ := Prod.mk.inj (Except.ok.inj hd)
  exact Cursor.Reaches.refl c

section Bodies

variable {inner tight : Cursor → Step}

theorem arms_keeps (hm : ∀ c, Keeps c (inner c)) (hl : ∀ c, Keeps c (tight c))
    (v : Option Number) (c : Cursor) : Keeps c (arms inner tight v c) := by
  refine (skippedIf_keeps hm _ c).bind fun yes d _ => ?_
  refine expect_keeps ?_
  refine (skippedIf_keeps hl _ _).bind fun no e _ => ?_
  exact keeps_ok e _

theorem rightOperand_keeps (h : ∀ c, Keeps c (tight c)) (op : BinaryOp) (v : Option Number)
    (c : Cursor) : Keeps c (rightOperand tight op v c) := by
  unfold rightOperand
  split
  · exact (skipped_keeps h c).bind fun _ d _ => keeps_ok d _
  · exact (h c).bind fun r d _ => value_keeps

theorem unaryOperand_keeps (h : ∀ c, Keeps c (tight c)) (op : UnaryOp) (c : Cursor) :
    Keeps c (unaryOperand tight op c) := by
  refine (h c).bind fun v d _ => ?_
  cases v with
  | none => exact keeps_ok d _
  | some v => exact value_keeps

theorem group_keeps (h : ∀ c, Keeps c (inner c)) (c : Cursor) : Keeps c (group inner c) :=
  (h c).bind fun _ _ _ => expect_keeps (keeps_ok _ _)

theorem primary_advances (resolve : Resolver) (hi : ∀ c, Keeps c (inner c))
    (ht : ∀ c, Keeps c (tight c)) (c : Cursor) : Advances c (primary resolve inner tight c) := by
  unfold primary
  split
  · exact advances_error c _
  · next h => exact (keeps_ok _ _).advances_of_peek? h
  · next h => exact (keeps_ok _ _).advances_of_peek? h
  · next h => exact (name_keeps resolve _ _).advances_of_peek? h
  · next h =>
    split
    · next rest hrest =>
      refine (ht _).advances (c.reaches_advance.trans ⟨afterCast_suffix hrest, rfl, rfl, rfl⟩) ?_
      exact Nat.lt_of_le_of_lt (afterCast_suffix hrest).length_le (Cursor.length_advance_lt h)
    · exact (group_keeps hi _).advances_of_peek? h
  · next h =>
    split
    · exact (unaryOperand_keeps ht _ _).advances_of_peek? h
    · exact advances_error c _

end Bodies

/-! ## All readers -/

/-- What each reader leaves with a given fuel. -/
structure Progress (resolve : Resolver) (fuel : Nat) : Prop where
  sequence : ∀ c, Advances c (sequence resolve fuel c)
  sequenceTail : ∀ v c, Keeps c (sequenceTail resolve fuel v c)
  expression : ∀ level c, Advances c (expression resolve fuel level c)
  operands : ∀ v c, Keeps c (operands resolve fuel v c)
  operators : ∀ level v c, Keeps c (operators resolve fuel level v c)
  operand : ∀ c, Advances c (operand resolve fuel c)

theorem counted_advances {read : Cursor → Step} (h : ∀ c, Advances c (read c)) (c : Cursor) :
    Advances c (counted read c) := by
  intro v e he
  obtain ⟨c', hc', he⟩ := bind_eq_ok.mp he
  obtain ⟨-, rfl⟩ := Cursor.enter_eq_ok.mp hc'
  obtain ⟨⟨w, d⟩, hr, he⟩ := bind_eq_ok.mp he
  obtain ⟨-, rfl⟩ := Prod.mk.inj (Except.ok.inj he)
  obtain ⟨hd, hl⟩ := h _ w d hr
  exact ⟨hd.leave, hl⟩

theorem steps_progress (resolve : Resolver) (fuel : Nat) : Progress resolve fuel := by
  induction fuel with
  | zero =>
    constructor <;> intros
    · exact advances_error _ _
    · exact keeps_error _ _
    · exact advances_error _ _
    · exact keeps_error _ _
    · exact keeps_error _ _
    · exact advances_error _ _
  | succ fuel ih =>
    constructor
    case sequence =>
      intro c
      rw [ConstLookup.Eval.sequence]
      exact (ih.expression _ c).bind fun v d _ => ih.sequenceTail v d
    case sequenceTail =>
      intro v c
      rw [ConstLookup.Eval.sequenceTail]
      split
      · next h =>
        have hp := Cursor.peek?_of_atMark h
        refine (Keeps.advances_of_peek? ?_ hp).keeps
        exact (ih.expression _ _).keeps.bind fun v d _ => ih.sequenceTail v d
      · exact keeps_ok c v
    case expression =>
      intro level c
      rw [ConstLookup.Eval.expression]
      refine counted_advances (fun c => ?_) c
      refine (ih.operand c).bind fun v d _ => ?_
      exact (ih.operands v d).bind fun w e _ => ih.operators level w e
    case operands =>
      intro v c
      rw [ConstLookup.Eval.operands]
      split
      · exact (ih.operand c).keeps.bind fun v d _ => ih.operands v d
      · exact keeps_ok c v
    case operators =>
      intro level v c
      rw [ConstLookup.Eval.operators]
      split
      · next h =>
        split
        · exact ((ih.operators level v _).advances_of_peek? h).keeps
        · exact keeps_ok c v
      · next h =>
        split
        · refine (Keeps.advances_of_peek? ?_ h).keeps
          refine (arms_keeps (fun c => (ih.sequence c).keeps)
            (fun c => (ih.expression _ c).keeps) v _).bind fun w d _ => ih.operators level w d
        · exact keeps_ok c v
      · next h =>
        split
        · exact keeps_ok c v
        · split
          · exact keeps_ok c v
          · refine (Keeps.advances_of_peek? ?_ h).keeps
            refine (rightOperand_keeps (fun c => (ih.expression _ c).keeps) _ v _).bind
              fun w d _ => ih.operators level w d
      · exact keeps_ok c v
    case operand =>
      intro c
      rw [ConstLookup.Eval.operand]
      exact counted_advances (primary_advances resolve (fun c => (ih.sequence c).keeps)
        fun c => (ih.expression _ c).keeps) c

end ConstLookup.Eval
