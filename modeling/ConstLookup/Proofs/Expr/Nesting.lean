import ConstLookup.Proofs.Expr.Fuel

/-!
  Readers that give a value, or find operands nested too deeply. `Within n` says that an outcome
  is another one, unless a depth of `n` is too deep; `Evaluates n` says it of a reader, whether
  it skips or not. The readers of groups, operands and arms keep it for the readers inside.
-/

namespace ConstLookup.Eval

/-- The outcome is `s`, unless operands had to be open at a depth of `d` and that is too deep. -/
def Within (d : Nat) {α : Type} (r s : Except EvalError α) : Prop :=
  r = s ∨ (r = .error .tooDeep ∧ maxDepth < d)

namespace Within

variable {d : Nat} {α β : Type} {r s : Except EvalError α}

theorem refl (d : Nat) (r : Except EvalError α) : Within d r r := .inl rfl

theorem mono {d' : Nat} (h : Within d r s) (le : d ≤ d') : Within d' r s :=
  h.imp_right fun ⟨e, hd⟩ => ⟨e, Nat.lt_of_lt_of_le hd le⟩

/-- No depth up to the limit is too deep. -/
theorem eq (h : Within d r s) (le : d ≤ maxDepth) : r = s :=
  h.resolve_right fun deep => Nat.not_lt.mpr le deep.2

theorem trans {t : Except EvalError α} (h : Within d r s) (h' : Within d s t) : Within d r t := by
  rcases h with rfl | deep
  · exact h'
  · exact .inr deep

theorem bind_ok {a : α} (h : Within d r (.ok a)) {f : α → Except EvalError β} :
    Within d (r >>= f) (f a) := by
  rcases h with rfl | ⟨rfl, deep⟩
  · exact .refl d _
  · exact .inr ⟨rfl, deep⟩

theorem bind_left (x : Except EvalError α) {f g : α → Except EvalError β}
    (h : ∀ a, Within d (f a) (g a)) : Within d (x >>= f) (x >>= g) := by
  cases x with
  | error e => exact .refl d _
  | ok a => exact h a

end Within

/-- The value of an operand, with the place `d` after it. -/
def yields (x : Except EvalError Number) (d : Cursor) : Step := x >>= fun v => .ok (some v, d)

section Readers

variable {n : Nat} {read : Cursor → Step} {c d : Cursor} {x : Except EvalError Number}

theorem Within.andThen {r : Step} {α : Type} {f : Option Number × Cursor → Except EvalError α}
    {g : Number → Except EvalError α} (h : Within n r (yields x d))
    (hf : ∀ v, Within n (f (some v, d)) (g v)) : Within n (r >>= f) (x >>= g) := by
  rcases h with rfl | ⟨rfl, hn⟩
  · cases x with
    | error e => exact .refl n _
    | ok v => exact hf v
  · exact .inr ⟨rfl, hn⟩

theorem yields_bind (x : Except EvalError Number) (f : Number → Except EvalError Number)
    (d : Cursor) : yields (x >>= f) d = (x >>= fun v => yields (f v) d) := by
  cases x <;> rfl

theorem counted_within (hd : d.depth = c.depth)
    (h : Within n (read { c with depth := c.depth + 1 })
      (yields x { d with depth := c.depth + 1 })) (hn : c.depth + 1 ≤ n) :
    Within n (counted read c) (yields x d) := by
  have leave : ({ d with depth := c.depth + 1 } : Cursor).leave = d := by
    rw [Cursor.leave, Nat.add_sub_cancel, ← hd]
  unfold counted Cursor.enter
  split
  · refine h.andThen fun v => ?_
    dsimp only
    rw [leave]
    exact .refl n _
  · exact .inr ⟨rfl, by omega⟩

/-- Whether it skips or not, `read` gives the value of `f`, from `c` to `d`. -/
structure Evaluates (n : Nat) (read : Cursor → Step) (f : Bool → Except EvalError Number)
    (c d : Cursor) : Prop where
  skipping : d.skipping = c.skipping
  run : ∀ s, Within n (read { c with skipping := s }) (yields (f s) { d with skipping := s })

theorem Evaluates.mono {n' : Nat} {f : Bool → Except EvalError Number}
    (h : Evaluates n read f c d) (le : n ≤ n') : Evaluates n' read f c d :=
  ⟨h.skipping, fun s => (h.run s).mono le⟩

theorem Evaluates.bare {f : Bool → Except EvalError Number} (h : Evaluates n read f c d) :
    Within n (read c) (yields (f c.skipping) d) := by
  have e : ({ d with skipping := c.skipping } : Cursor) = d := by rw [← h.skipping]
  have run := h.run c.skipping
  rwa [e] at run

theorem Evaluates.skipped {f : Bool → Except EvalError Number} (h : Evaluates n read f c d) :
    Within n (skipped read c) (yields (f true) d) := by
  refine (h.run true).andThen fun v => ?_
  dsimp only
  rw [← h.skipping]
  exact .refl n _

theorem Evaluates.skippedIf {f : Bool → Except EvalError Number} (h : Evaluates n read f c d)
    (skip : Bool) : Within n (skippedIf skip read c) (yields (f (c.skipping || skip)) d) := by
  cases skip with
  | false =>
    rw [Bool.or_false]
    exact h.bare
  | true =>
    rw [Bool.or_true]
    exact h.skipped

theorem group_within (h : Within n (read c) (yields x d))
    (close : d.peek? = some (.mark .rightParen)) :
    Within n (group read c) (yields x d.advance) := by
  have hm : d.atMark .rightParen = true := by
    rw [Cursor.atMark, close]
    rfl
  refine h.andThen fun v => ?_
  simp only [Cursor.expect, hm]
  exact .refl n _

theorem unaryOperand_within (h : Within n (read c) (yields x d)) (op : UnaryOp) :
    Within n (unaryOperand read op c)
      (yields (x >>= fun v => guarded d.skipping (op.apply v)) d) := by
  rw [yields_bind]
  exact h.andThen fun v => .refl n _

theorem rightOperand_within {f : Bool → Except EvalError Number} (h : Evaluates n read f c d)
    (op : BinaryOp) (a : Number) :
    Within n (rightOperand read op (some a) c)
      (yields (if decides op (some a) then f true >>= fun _ => .ok (.ofBool (op = .or))
        else f c.skipping >>= fun b => guarded c.skipping (op.apply a b)) d) := by
  unfold rightOperand
  split
  · rw [yields_bind]
    exact h.skipped.andThen fun v => .refl n _
  · rw [yields_bind]
    refine h.bare.andThen fun b => ?_
    dsimp only
    rw [h.skipping, combine]
    cases guarded c.skipping (op.apply a b) <;> exact .refl n _

theorem arms_within {last : Cursor → Step} {m : Cursor} {f g : Bool → Except EvalError Number}
    (h : Evaluates n read f c m) (colon : m.peek? = some (.mark .colon))
    (h' : Evaluates n last g m.advance d) (v : Number) :
    Within n (arms read last (some v) c)
      (yields (f (c.skipping || !v.isTrue) >>= fun yes => g (c.skipping || v.isTrue) >>= fun no =>
        .ok (if v.isTrue then yes else no)) d) := by
  have hm : m.atMark .colon = true := by
    rw [Cursor.atMark, colon]
    rfl
  have hs : m.advance.skipping = c.skipping := h.skipping
  have middle := h.skippedIf (some v.isTrue = some false)
  have final := h'.skippedIf (some v.isTrue = some true)
  have first : decide (some v.isTrue = some false) = !v.isTrue := by cases v.isTrue <;> rfl
  have second : decide (some v.isTrue = some true) = v.isTrue := by cases v.isTrue <;> rfl
  rw [first] at middle
  rw [second, hs] at final
  unfold arms
  simp only [Option.map_some, first, second, yields_bind]
  refine middle.andThen fun yes => ?_
  simp only [Cursor.expect, hm]
  refine final.andThen fun no => ?_
  cases hv : v.isTrue <;> simp only [choose, hv] <;> exact .refl n _

end Readers

end ConstLookup.Eval
