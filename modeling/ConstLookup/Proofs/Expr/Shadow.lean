import ConstLookup.Proofs.Expr.Balance
import ConstLookup.Proofs.Expr.Nesting
import ConstLookup.Proofs.Expr.Skipping

/-!
  A reader that skips takes the tokens that a reader takes which finds a value there.

  Two runs are compared: one with a resolver that gives values, skipping or not, and one that
  skips, with any resolver, on the same tokens with a closing parenthesis after them. The second
  run puts zero for names and failures, so conditions may decide otherwise in it and other arms
  are skipped; still both take the same tokens (`steps_shadow`, by induction on the fuel over the
  six readers). The second run needs at most two open operands a token, so only a long text can
  be nested too deeply for it. Annotations are left out: beside a condition without a value the
  runs may part.
-/

namespace ConstLookup.Eval

/-- No token is the name of an annotation. -/
def Unannotated (ts : List Token) : Prop := ∀ w ∈ annotations, Token.ident w ∉ ts

/-- What the tokens `more` after a closing parenthesis begin with is no operand. -/
def Apart (more : List Token) : Prop := ∀ t ∈ more.head?, t.startsOperand = false

theorem apart_nil : Apart [] := nofun

theorem apart_mark {m : Mark} (left : m ≠ .leftParen) (unary : m.unary? = none)
    (more : List Token) : Apart (.mark m :: more) := by
  rintro _ ⟨⟩
  simp [Token.startsOperand, left, unary]

/-! ## Tokens with a closing parenthesis after them -/

section Tokens

variable {more : List Token} {ts us rest : List (Token × Nat)}

theorem exists_of_map_fst {t : Token} {tokens : List Token}
    (same : us.map Prod.fst = t :: tokens) :
    ∃ offset us', us = (t, offset) :: us' ∧ us'.map Prod.fst = tokens := by
  obtain ⟨⟨_, offset⟩, us', rfl, rfl, later⟩ := List.map_eq_cons_iff.mp same
  exact ⟨offset, us', rfl, later⟩

theorem afterClosing_extend {suffix : List Token} {level : Nat}
    (same : us.map Prod.fst = ts.map Prod.fst ++ suffix)
    (closed : afterClosing level ts = some rest) :
    ∃ rest', afterClosing level us = some rest' ∧
      rest'.map Prod.fst = rest.map Prod.fst ++ suffix := by
  induction ts generalizing level us with
  | nil => cases closed
  | cons p ts ih =>
    obtain ⟨t, _⟩ := p
    obtain ⟨_, us, rfl, later⟩ := exists_of_map_fst same
    by_cases left : t = .mark .leftParen
    · subst left
      rw [afterClosing_leftParen] at closed ⊢
      exact ih later closed
    by_cases right : t = .mark .rightParen
    · subst right
      cases level with
      | zero =>
        obtain rfl := Option.some.inj closed
        exact ⟨us, rfl, later⟩
      | succ level =>
        rw [afterClosing_rightParen] at closed ⊢
        exact ih later closed
    · rw [afterClosing_other left right] at closed ⊢
      exact ih later closed

/-- An operand follows where one follows without the parenthesis at the end. -/
theorem startsOperand_extend
    (same : us.map Prod.fst = ts.map Prod.fst ++ .mark .rightParen :: more) :
    (us.head?.map (·.1.startsOperand)).getD false =
      (ts.head?.map (·.1.startsOperand)).getD false := by
  cases ts with
  | nil =>
    obtain ⟨_, us, rfl, -⟩ := exists_of_map_fst same
    rfl
  | cons p ts =>
    obtain ⟨_, us, rfl, -⟩ := exists_of_map_fst same
    rfl

theorem Apart.startsOperand (apart : Apart more) (same : us.map Prod.fst = more) :
    (us.head?.map (·.1.startsOperand)).getD false = false := by
  subst same
  cases us with
  | nil => rfl
  | cons p us => exact apart _ rfl

theorem afterCast_other {sawType : Bool} {t : Token} (ident : ∀ w, t ≠ .ident w)
    (star : t ≠ .mark .star) (right : t ≠ .mark .rightParen) (offset : Nat)
    (ts : List (Token × Nat)) : afterCast sawType ((t, offset) :: ts) = none := by
  unfold afterCast
  split
  · next e => cases e; exact absurd rfl (ident _)
  · next e => cases e; exact absurd rfl star
  · next e => cases e; exact absurd rfl right
  · rfl

theorem afterCast_extend (apart : Apart more) (sawType : Bool)
    (same : us.map Prod.fst = ts.map Prod.fst ++ .mark .rightParen :: more) :
    (afterCast sawType us).map (·.map Prod.fst) =
      (afterCast sawType ts).map (·.map Prod.fst ++ .mark .rightParen :: more) := by
  induction ts generalizing sawType us with
  | nil =>
    obtain ⟨_, us, rfl, later⟩ := exists_of_map_fst same
    rw [afterCast, apart.startsOperand later, Bool.and_false]
    rfl
  | cons p ts ih =>
    obtain ⟨t, _⟩ := p
    obtain ⟨_, us, rfl, later⟩ := exists_of_map_fst same
    by_cases ident : ∃ w, t = .ident w
    · obtain ⟨w, rfl⟩ := ident
      rw [afterCast, afterCast]
      split
      · exact ih _ later
      · rfl
    by_cases star : t = .mark .star
    · subst star
      rw [afterCast, afterCast]
      split
      · exact ih _ later
      · rfl
    by_cases right : t = .mark .rightParen
    · subst right
      rw [afterCast, afterCast, startsOperand_extend later]
      split
      · exact congrArg some later
      · rfl
    · have noIdent : ∀ w, t ≠ .ident w := fun w e => ident ⟨w, e⟩
      rw [afterCast_other noIdent star right, afterCast_other noIdent star right]
      rfl

end Tokens

/-! ## The two runs -/

/-- The run at `d` skips behind the run at `c`: the same tokens are left in it, none of them an
annotation and at most `length`, and then a closing parenthesis and `more`. -/
structure Trails (more : List Token) (depth length : Nat) (c d : Cursor) : Prop where
  tokens : d.rest.map Prod.fst = c.rest.map Prod.fst ++ .mark .rightParen :: more
  plain : Unannotated (c.rest.map Prod.fst)
  length : c.rest.length ≤ length
  depth : d.depth = depth
  skipping : d.skipping = true

section Trails

variable {more : List Token} {depth length : Nat} {c d : Cursor} {t : Token} {m : Mark}

theorem Cursor.peek?_eq_head? (c : Cursor) : c.peek? = (c.rest.map Prod.fst).head? := by
  rw [Cursor.peek?, List.head?_map]

namespace Trails

theorem mono (h : Trails more depth length c d) {longer : Nat} (le : length ≤ longer) :
    Trails more depth longer c d :=
  ⟨h.tokens, h.plain, Nat.le_trans h.length le, h.depth, h.skipping⟩

/-- Further on in the same tokens. -/
theorem further (h : Trails more depth length c d) {rest rest' : List (Token × Nat)}
    (suffix : rest <:+ c.rest)
    (same : rest'.map Prod.fst = rest.map Prod.fst ++ .mark .rightParen :: more) :
    Trails more depth rest.length { c with rest := rest } { d with rest := rest' } :=
  ⟨same, fun w hw mem => h.plain w hw ((suffix.map Prod.fst).subset mem), Nat.le_refl _, h.depth,
    h.skipping⟩

theorem peek? (h : Trails more depth length c d) (hp : c.peek? = some t) : d.peek? = some t := by
  rw [Cursor.peek?_eq_head?] at hp ⊢
  rw [h.tokens, List.head?_append, hp]
  rfl

theorem peek?_end (h : Trails more depth length c d) (hp : c.peek? = none) :
    d.peek? = some (.mark .rightParen) := by
  rw [Cursor.peek?_eq_head?] at hp ⊢
  rw [h.tokens, List.head?_append, hp]
  rfl

theorem atMark (h : Trails more depth length c d) (hm : m ≠ .rightParen) :
    d.atMark m = c.atMark m := by
  unfold Cursor.atMark
  cases hp : c.peek? with
  | none =>
    rw [h.peek?_end hp]
    exact decide_eq_false (Ne.symm hm)
  | some t => rw [h.peek? hp]

theorem advance (h : Trails more depth length c d) (hp : c.peek? = some t) :
    ∃ shorter < length, Trails more depth shorter c.advance d.advance := by
  have lt := Nat.lt_of_lt_of_le (Cursor.length_advance_lt hp) h.length
  obtain ⟨offset, first⟩ := Cursor.rest_of_peek? hp
  have tokens := h.tokens
  rw [first] at tokens
  obtain ⟨_, later, hd, same⟩ := exists_of_map_fst tokens
  have moved : d.advance = { d with rest := later } := by rw [Cursor.advance, hd]; rfl
  rw [moved]
  exact ⟨_, lt, h.further (List.tail_suffix c.rest) same⟩

theorem enter (h : Trails more depth length c d) :
    Trails more (depth + 1) length { c with depth := c.depth + 1 }
      { d with depth := d.depth + 1 } :=
  ⟨h.tokens, h.plain, h.length, congrArg (· + 1) h.depth, h.skipping⟩

theorem leave (h : Trails more (depth + 1) length c d) :
    Trails more depth length c.leave d.leave :=
  ⟨h.tokens, h.plain, h.length, congrArg (· - 1) h.depth, h.skipping⟩

/-- The first run may skip or not. -/
theorem withSkipping (h : Trails more depth length c d) (s : Bool) :
    Trails more depth length { c with skipping := s } d :=
  ⟨h.tokens, h.plain, h.length, h.depth, h.skipping⟩

theorem skipping_true (h : Trails more depth length c d) :
    ({ d with skipping := true } : Cursor) = d := by
  rw [← h.skipping]

end Trails

end Trails

/-- When `r` finds a value, `s` finds one behind it, unless operands had to be open at a depth of
`n` and that is too deep. -/
def Shadows (more : List Token) (n depth length : Nat) (r s : Step) : Prop :=
  ∀ v c, r = .ok (v, c) → ∃ u w d, v = some u ∧ Within n s (.ok (some w, d)) ∧
    Trails more depth length c d

section Shadows

variable {more : List Token} {n depth length : Nat} {r s : Step} {c d : Cursor}

namespace Shadows

theorem ok (h : Trails more depth length c d) (u w : Number) :
    Shadows more n depth length (.ok (some u, c)) (.ok (some w, d)) := by
  rintro _ _ ⟨⟩
  exact ⟨u, w, d, rfl, .refl n _, h⟩

theorem error (e : EvalError) : Shadows more n depth length (.error e) s := by
  rintro _ _ ⟨⟩

theorem mono (h : Shadows more n depth length r s) {longer : Nat} (le : length ≤ longer) :
    Shadows more n depth longer r s := by
  intro v c hr
  obtain ⟨u, w, d, rfl, hs, hd⟩ := h v c hr
  exact ⟨u, w, d, rfl, hs, hd.mono le⟩

theorem bind {depth' length' : Nat} {f g : Option Number × Cursor → Step}
    (h : Shadows more n depth length r s)
    (hf : ∀ u w c d, Trails more depth length c d →
      Shadows more n depth' length' (f (some u, c)) (g (some w, d))) :
    Shadows more n depth' length' (r >>= f) (s >>= g) := by
  intro v e he
  obtain ⟨⟨_, c⟩, hr, he⟩ := bind_eq_ok.mp he
  obtain ⟨u, w, d, rfl, hs, hd⟩ := h _ c hr
  obtain ⟨u', w', e', rfl, hg, ht⟩ := hf u w c d hd v e he
  exact ⟨u', w', e', rfl, hs.bind_ok.trans hg, ht⟩

theorem bind_left {α : Type} {x : Except EvalError α} {f : α → Step}
    (h : ∀ a, x = .ok a → Shadows more n depth length (f a) s) :
    Shadows more n depth length (x >>= f) s := by
  intro v c hc
  obtain ⟨a, hx, hc⟩ := bind_eq_ok.mp hc
  exact h a hx v c hc

theorem expect {m : Mark} {f g : Cursor → Step} (h : Trails more depth length c d)
    (hf : ∀ c d, Trails more depth length c d → Shadows more n depth length (f c) (g d)) :
    Shadows more n depth length (c.expect m >>= f) (d.expect m >>= g) := by
  intro v e he
  obtain ⟨c', hc', hv⟩ := bind_eq_ok.mp he
  obtain ⟨mark, rfl⟩ := Cursor.expect_eq_ok.mp hc'
  have here := Cursor.peek?_of_atMark mark
  obtain ⟨shorter, lt, next⟩ := h.advance here
  have mark' : d.expect m = .ok d.advance :=
    Cursor.expect_eq_ok.mpr ⟨by simp [Cursor.atMark, h.peek? here, Token.isMark], rfl⟩
  rw [mark']
  exact hf _ _ (next.mono (Nat.le_of_lt lt)) v e hv

end Shadows

/-- The reader that skips finds a value behind the other one, wherever both start. -/
def Shadow (more : List Token) (n depth length : Nat) (read skip : Cursor → Step) : Prop :=
  ∀ ⦃c d : Cursor⦄, Trails more depth length c d →
    Shadows more n depth length (read c) (skip d)

theorem Shadow.counted {read skip : Cursor → Step} (h : Shadow more n (depth + 1) length read skip)
    (room : depth < n) : Shadow more n depth length (counted read) (counted skip) := by
  intro c d start v e he
  obtain ⟨c', hc', he⟩ := bind_eq_ok.mp he
  obtain ⟨-, rfl⟩ := Cursor.enter_eq_ok.mp hc'
  obtain ⟨⟨_, c'⟩, hr, he⟩ := bind_eq_ok.mp he
  obtain ⟨rfl, rfl⟩ := Prod.mk.inj (Except.ok.inj he)
  obtain ⟨u, w, d', rfl, hs, hd⟩ := h start.enter _ c' hr
  refine ⟨u, w, d'.leave, rfl, ?_, hd.leave⟩
  unfold Eval.counted Cursor.enter
  split
  · exact hs.bind_ok
  · have full := start.depth
    exact .inr ⟨rfl, by omega⟩

theorem Shadows.skipped_left {read : Cursor → Step}
    (h : Shadows more n depth length (read { c with skipping := true }) s) :
    Shadows more n depth length (skipped read c) s := by
  intro v e he
  obtain ⟨⟨_, c'⟩, hr, he⟩ := bind_eq_ok.mp he
  obtain ⟨rfl, rfl⟩ := Prod.mk.inj (Except.ok.inj he)
  obtain ⟨u, w, d, rfl, hs, hd⟩ := h _ c' hr
  exact ⟨u, w, d, rfl, hs, hd.withSkipping _⟩

theorem Shadows.skipped_right {skip : Cursor → Step} (start : Trails more depth length c d)
    (h : Shadows more n depth length r (skip d)) :
    Shadows more n depth length r (skipped skip d) := by
  intro v c' hr
  obtain ⟨u, w, e, rfl, hs, he⟩ := h v c' hr
  refine ⟨u, w, e, rfl, ?_, he⟩
  unfold skipped
  rw [start.skipping_true, start.skipping]
  have back := hs.bind_ok (f := fun p => .ok (p.1, { p.2 with skipping := true }))
  rw [he.skipping_true] at back
  exact back

theorem Shadow.skipped_left {read skip : Cursor → Step}
    (h : Shadow more n depth length read skip) :
    Shadow more n depth length (skipped read) skip :=
  fun _ _ start => (h (start.withSkipping true)).skipped_left

theorem Shadow.skipped_right {read skip : Cursor → Step}
    (h : Shadow more n depth length read skip) :
    Shadow more n depth length read (skipped skip) :=
  fun _ _ start => (h start).skipped_right start

/-- Each run decides for itself whether it skips. -/
theorem Shadow.skippedIf {read skip : Cursor → Step} (h : Shadow more n depth length read skip)
    (b b' : Bool) : Shadow more n depth length (skippedIf b read) (skippedIf b' skip) := by
  cases b <;> cases b'
  · exact h
  · exact h.skipped_right
  · exact h.skipped_left
  · exact h.skipped_left.skipped_right

/-! ## Bodies -/

theorem skipGroup_trails (h : Trails more depth length c d) {e : Cursor}
    (hc : skipGroup c = .ok e) :
    ∃ e', skipGroup d = .ok e' ∧ Trails more depth length e e' := by
  obtain ⟨c', hc', hc⟩ := bind_eq_ok.mp hc
  obtain ⟨left, rfl⟩ := Cursor.expect_eq_ok.mp hc'
  obtain ⟨shorter, lt, next⟩ := h.advance (Cursor.peek?_of_atMark left)
  have left' : d.expect .leftParen = .ok d.advance :=
    Cursor.expect_eq_ok.mpr ⟨(h.atMark (m := .leftParen) nofun).trans left, rfl⟩
  split at hc
  · next rest closed =>
    obtain rfl := Except.ok.inj hc
    obtain ⟨rest', closed', same⟩ := afterClosing_extend next.tokens closed
    refine ⟨{ d.advance with rest := rest' }, ?_, ?_⟩
    · unfold skipGroup
      rw [left']
      simp only [bind, Except.bind, closed']
    · have le := (afterClosing_suffix closed).length_le
      exact (next.further (afterClosing_suffix closed) same).mono
        (Nat.le_trans le (Nat.le_trans next.length (Nat.le_of_lt lt)))
  · cases hc

theorem skipArguments_trails (h : Trails more depth length c d) {e : Cursor}
    (hc : skipArguments c = .ok e) :
    ∃ e', skipArguments d = .ok e' ∧ Trails more depth length e e' := by
  unfold skipArguments at hc ⊢
  rw [h.atMark (m := .leftParen) nofun]
  split at hc
  · next left =>
    rw [if_pos left]
    exact skipGroup_trails h hc
  · next left =>
    obtain rfl := Except.ok.inj hc
    rw [if_neg left]
    exact ⟨d, rfl, h⟩

theorem name_skipping {R : Resolver} {word : String} (plain : word ∉ annotations)
    (h : c.skipping = true) :
    name R word c = skipArguments c >>= fun c => .ok (some (.int 0), c) := by
  unfold name
  rw [if_neg (by simpa using plain), if_pos h]
  rfl

/-- A name that is no annotation has arguments only where it is skipped. -/
theorem name_shadow {R R' : Resolver} {word : String} (plain : word ∉ annotations) :
    Shadow more n depth length (name R word) (name R' word) := by
  intro c d start v e he
  have skips := name_skipping (R := R') plain start.skipping
  by_cases h : c.skipping = true
  · rw [name_skipping plain h] at he
    obtain ⟨c', hc', he⟩ := bind_eq_ok.mp he
    obtain ⟨rfl, rfl⟩ := Prod.mk.inj (Except.ok.inj he)
    obtain ⟨d', hd', next⟩ := skipArguments_trails start hc'
    refine ⟨_, .int 0, d', rfl, ?_, next⟩
    rw [skips, hd']
    exact .refl n _
  · unfold name at he
    rw [if_neg (by simpa using plain), if_neg h] at he
    split at he
    · cases he
    · next reserved =>
      have bare : c.atMark .leftParen = false := by
        rw [Bool.eq_false_iff]
        intro left
        exact reserved (by rw [left, Bool.or_true])
      split at he
      · next u hu =>
        obtain ⟨rfl, rfl⟩ := Prod.mk.inj (Except.ok.inj he)
        refine ⟨u, .int 0, d, rfl, ?_, start⟩
        rw [skips, skipArguments, start.atMark (m := .leftParen) nofun, bare]
        exact .refl n _
      · cases he

variable {inner inner' tight tight' : Cursor → Step}

theorem arms_shadow (hi : Shadow more n depth length inner inner')
    (ht : Shadow more n depth length tight tight') (u w : Number) :
    Shadow more n depth length (arms inner tight (some u)) (arms inner' tight' (some w)) := by
  intro c d start
  unfold arms
  refine (hi.skippedIf _ _ start).bind fun yes yes' c d middle => ?_
  refine Shadows.expect middle fun c d next => ?_
  refine (ht.skippedIf _ _ next).bind fun no no' c d last => ?_
  dsimp only [choose]
  rw [← apply_ite some, ← apply_ite some]
  exact .ok last _ _

theorem combine_some {op : BinaryOp} {skipping : Bool} {l r : Number} {v : Option Number}
    (h : combine op skipping (some l) (some r) = .ok v) : ∃ u, v = some u := by
  change (guarded skipping (op.apply l r)).map some = .ok v at h
  cases result : guarded skipping (op.apply l r) with
  | error e => rw [result] at h; cases h
  | ok u =>
    rw [result] at h
    exact ⟨u, (Except.ok.inj h).symm⟩

theorem combine_skipping (op : BinaryOp) (l r : Number) :
    ∃ u, combine op true (some l) (some r) = .ok (some u) := by
  obtain ⟨u, hu⟩ := ExprTree.guarded_true (op.apply l r)
  exact ⟨u, by rw [combine, hu]; rfl⟩

/-- Either run may find the operator decided. -/
theorem rightOperand_shadow (h : Shadow more n depth length tight tight') (op : BinaryOp)
    (u w : Number) :
    Shadow more n depth length (rightOperand tight op (some u))
      (rightOperand tight' op (some w)) := by
  intro c d start
  have decided (x : Number) (c d : Cursor) (next : Trails more depth length c d) (b : Number) :
      Shadows more n depth length (.ok (some x, c))
        (combine op d.skipping (some w) (some b) >>= fun v => .ok (v, d)) := by
    obtain ⟨y, hy⟩ := combine_skipping op w b
    rw [next.skipping, hy]
    exact .ok next x y
  unfold rightOperand
  -- the left values differ, so one run may skip what the other one combines
  split <;> split
  · exact (h.skipped_left.skipped_right start).bind fun _ _ c d next => .ok next _ _
  · exact (h.skipped_left start).bind fun _ b c d next => decided _ c d next b
  · refine (h.skipped_right start).bind fun a _ c d next => Shadows.bind_left fun v hv => ?_
    obtain ⟨x, rfl⟩ := combine_some hv
    exact .ok next x _
  · refine (h start).bind fun a b c d next => Shadows.bind_left fun v hv => ?_
    obtain ⟨x, rfl⟩ := combine_some hv
    exact decided x c d next b

theorem unaryOperand_shadow (h : Shadow more n depth length tight tight') (op : UnaryOp) :
    Shadow more n depth length (unaryOperand tight op) (unaryOperand tight' op) := by
  intro c d start
  refine (h start).bind fun u w c d next => Shadows.bind_left fun v _ => ?_
  obtain ⟨x, hx⟩ := ExprTree.guarded_true (op.apply w)
  dsimp only
  rw [next.skipping, hx]
  exact .ok next v x

theorem group_shadow (h : Shadow more n depth length inner inner') :
    Shadow more n depth length (group inner) (group inner') := by
  intro c d start
  refine (h start).bind fun u w c d next => ?_
  exact Shadows.expect next fun c d last => .ok last u w

/-- One operand, when its parts are shadowed on all shorter texts. -/
theorem primary_shadow (apart : Apart more) {R R' : Resolver}
    (hi : ∀ shorter < length, Shadow more n depth shorter inner inner')
    (ht : ∀ shorter < length, Shadow more n depth shorter tight tight') :
    Shadow more n depth length (primary R inner tight) (primary R' inner' tight') := by
  intro c d start
  cases here : c.peek? with
  | none =>
    unfold primary
    rw [here]
    exact .error _
  | some t =>
    have here' := start.peek? here
    obtain ⟨shorter, lt, next⟩ := start.advance here
    refine Shadows.mono ?_ (Nat.le_of_lt lt)
    match t with
    | .int v | .float v =>
      unfold primary
      rw [here, here']
      exact .ok next _ _
    | .ident word =>
      rw [primary_ident here, primary_ident here']
      refine name_shadow (fun annotation => ?_) next
      obtain ⟨_, first⟩ := Cursor.rest_of_peek? here
      exact start.plain word annotation (by rw [first]; exact List.mem_cons_self)
    | .mark m =>
      by_cases left : m = .leftParen
      · subst left
        have same := afterCast_extend apart false next.tokens
        cases cast : afterCast false c.advance.rest with
        | some rest =>
          rw [cast] at same
          obtain ⟨rest', cast', tokens⟩ := Option.map_eq_some_iff.mp same
          rw [primary_cast here cast, primary_cast here' cast']
          have le := Nat.le_trans (afterCast_suffix cast).length_le next.length
          have operand := next.further (afterCast_suffix cast) tokens
          exact (ht _ (Nat.lt_of_le_of_lt le lt) operand).mono le
        | none =>
          rw [cast] at same
          rw [primary_group here cast, primary_group here' (Option.map_eq_none_iff.mp same)]
          exact group_shadow (hi _ lt) next
      · rw [primary_mark here left, primary_mark here' left]
        cases m.unary? with
        | none => exact .error _
        | some op => exact unaryOperand_shadow (ht _ lt) op next

/-- One round of the operators, when all that follows the first of them is shadowed. -/
theorem operators_shadow {R R' : Resolver} {fuel level : Nat}
    (hs : ∀ shorter < length, Shadow more n depth shorter (sequence R fuel) (sequence R' fuel))
    (he : ∀ level, ∀ shorter < length,
      Shadow more n depth shorter (expression R fuel level) (expression R' fuel level))
    (after : ∀ shorter < length, ∀ u w, Shadow more n depth shorter
      (operators R fuel level (some u)) (operators R' fuel level (some w)))
    (u w : Number) :
    Shadow more n depth length (operators R (fuel + 1) level (some u))
      (operators R' (fuel + 1) level (some w)) := by
  intro c d start
  rw [operators, operators]
  cases here : c.peek? with
  | none =>
    rw [start.peek?_end here]
    exact .ok start u w
  | some t =>
    obtain ⟨shorter, lt, next⟩ := start.advance here
    rw [start.peek? here]
    split
    · split
      · exact (after shorter lt u w next).mono (Nat.le_of_lt lt)
      · exact .ok start u w
    · split
      · refine Shadows.mono ?_ (Nat.le_of_lt lt)
        have both := arms_shadow (hs shorter lt) (he conditionalPrecedence shorter lt) u w
        exact (both next).bind fun u w c d next => after shorter lt u w next
      · exact .ok start u w
    · split
      · exact .ok start u w
      · next op hop =>
        split
        · exact .ok start u w
        · refine Shadows.mono ?_ (Nat.le_of_lt lt)
          have both := rightOperand_shadow (he op.precedence shorter lt) op u w
          exact (both next).bind fun u w c d next => after shorter lt u w next
    · exact .ok start u w

end Shadows

/-! ## All readers -/

/-- With `fuel` every reader shadows itself, where `n` leaves room for two open operands a token. -/
structure ShadowAt (more : List Token) (n : Nat) (R R' : Resolver) (fuel : Nat) : Prop where
  sequence : ∀ depth length, depth + 2 * length + 2 ≤ n →
    Shadow more n depth length (sequence R fuel) (sequence R' fuel)
  sequenceTail : ∀ depth length u w, depth + 2 * length ≤ n →
    Shadow more n depth length (sequenceTail R fuel (some u)) (sequenceTail R' fuel (some w))
  expression : ∀ depth length level, depth + 2 * length + 2 ≤ n →
    Shadow more n depth length (expression R fuel level) (expression R' fuel level)
  operands : ∀ depth length u w,
    Shadow more n depth length (operands R fuel (some u)) (operands R' fuel (some w))
  operators : ∀ depth length level u w, depth + 2 * length ≤ n →
    Shadow more n depth length (operators R fuel level (some u))
      (operators R' fuel level (some w))
  operand : ∀ depth length, depth + 2 * length + 1 ≤ n →
    Shadow more n depth length (operand R fuel) (operand R' fuel)

theorem steps_shadow {more : List Token} (apart : Apart more) (n : Nat) (R R' : Resolver)
    (fuel : Nat) : ShadowAt more n R R' fuel := by
  induction fuel with
  | zero => constructor <;> intros <;> exact fun _ _ _ => .error _
  | succ fuel ih =>
    constructor
    case sequence =>
      intro depth length room c d start
      rw [Eval.sequence, Eval.sequence]
      refine (ih.expression depth length _ room start).bind fun u w c d next => ?_
      exact ih.sequenceTail depth length u w (by omega) next
    case sequenceTail =>
      intro depth length u w room c d start
      rw [Eval.sequenceTail, Eval.sequenceTail, start.atMark (m := .comma) (by decide)]
      split
      · next comma =>
        obtain ⟨shorter, lt, next⟩ := start.advance (Cursor.peek?_of_atMark comma)
        refine Shadows.mono ?_ (Nat.le_of_lt lt)
        refine (ih.expression depth shorter _ (by omega) next).bind fun u w c d next => ?_
        exact ih.sequenceTail depth shorter u w (by omega) next
      · exact .ok start u w
    case expression =>
      intro depth length level room c d start
      rw [Eval.expression, Eval.expression]
      refine Shadow.counted (fun c d start => ?_) (by omega) start
      refine (ih.operand (depth + 1) length (by omega) start).bind fun u w c d next => ?_
      refine (ih.operands (depth + 1) length u w next).bind fun u w c d next => ?_
      exact ih.operators (depth + 1) length level u w (by omega) next
    case operands =>
      intro depth length u w c d start
      exact .ok start u w
    case operators =>
      intro depth length level u w room
      -- a token is taken before an operand is opened, which leaves room for two
      refine operators_shadow (fun shorter lt => ?_) (fun level shorter lt => ?_)
        (fun shorter lt u w => ?_) u w
      · exact ih.sequence depth shorter (by omega)
      · exact ih.expression depth shorter level (by omega)
      · exact ih.operators depth shorter level u w (by omega)
    case operand =>
      intro depth length room c d start
      rw [Eval.operand, Eval.operand]
      refine Shadow.counted (primary_shadow apart (fun shorter lt => ?_) fun shorter lt => ?_)
        (by omega) start
      · exact ih.sequence (depth + 1) shorter (by omega)
      · exact ih.expression (depth + 1) shorter _ (by omega)

/-- A sequence that is skipped ends where it ends when it has a value. -/
theorem readSequence_shadow {more : List Token} (apart : Apart more) (R R' : Resolver)
    {n depth length : Nat} (room : depth + 2 * length + 2 ≤ n) :
    Shadow more n depth length (readSequence R) (readSequence R') := by
  intro c d start
  have longer : c.rest.length ≤ d.rest.length := by
    have lengths := congrArg List.length start.tokens
    simp only [List.length_map, List.length_append] at lengths
    omega
  have enough : 3 * c.rest.length + 3 ≤ d.fuel :=
    Nat.le_trans (by omega) (Cursor.le_fuel (Nat.le_refl 3))
  -- the longer run has fuel enough for both
  rw [← sequence_eq_read R enough]
  exact (steps_shadow apart n R R' d.fuel).sequence depth length room start

end ConstLookup.Eval
