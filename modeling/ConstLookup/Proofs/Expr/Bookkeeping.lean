import ConstLookup.Proofs.Expr.Balance
import ConstLookup.Proofs.Expr.Counters
import ConstLookup.Proofs.Expr.FlatChain

/-!
  The counters of the readers are balanced (`readers_balanced`).

  With three steps for each token that is left every reader with counters ends as the reader of
  the same name on cursors does, with the same value, place and failure (`steps_tracked`, by
  induction on the fuel over the six readers, with one lemma on `Agrees` for each body). When it
  succeeds the depth and the flag are those before, and on every path the depth stays within one
  of the limit.
-/

namespace ConstLookup.Eval

/-! ## Agreement with the readers on cursors -/

/-- A reader that was started at `k` ends as a function on cursors does: with the same value at a
place that `k` leads to, or with the same failure. It is not out of fuel. -/
inductive Agrees (ts : List (Token × Nat)) {α β : Type} (view : α → Cursor → β) (k : Counters) :
    EStateM.Result Stop Counters α → Except EvalError β → Prop
  | ok {a : α} {k' : Counters} (leads : k.Leads ts k') :
    Agrees ts view k (.ok a k') (.ok (view a (k'.cursor ts)))
  | failed {e : EvalError} {k' : Counters} (deepest : k'.deepest ≤ maxDepth + 1) :
    Agrees ts view k (.error (.failed e) k') (.error e)

/-- From the place `start` on, the reader and the function on cursors agree. -/
def Tracks (ts : List (Token × Nat)) (start : Nat) (reader : Reading (Option Number))
    (read : Cursor → Step) : Prop :=
  ∀ k : Counters, start ≤ k.pos → k.Fits ts →
    Agrees ts Prod.mk k (reader.run k) (read (k.cursor ts))

section Agreement

variable {ts : List (Token × Nat)} {k k' : Counters}

theorem Agrees.after {α β : Type} {view : α → Cursor → β} {x : EStateM.Result Stop Counters α}
    {r : Except EvalError β} (h : Agrees ts view k' x r) (hk : k.Leads ts k') :
    Agrees ts view k x r := by
  cases h with
  | ok leads => exact .ok (hk.trans leads)
  | failed deepest => exact .failed deepest

theorem Agrees.bind {α β γ δ : Type} {view : α → Cursor → β} {view' : γ → Cursor → δ}
    {x : Reading α} {r : Except EvalError β} {f : α → Reading γ} {g : β → Except EvalError δ}
    (h : Agrees ts view k (x.run k) r)
    (hf : ∀ a k', k.Leads ts k' → r = .ok (view a (k'.cursor ts)) →
      Agrees ts view' k' ((f a).run k') (g (view a (k'.cursor ts)))) :
    Agrees ts view' k ((x >>= f).run k) (r >>= g) := by
  rw [EStateM.run_bind]
  generalize x.run k = result at h ⊢
  cases h with
  | @ok a k' leads => exact (hf a k' leads rfl).after leads
  | failed deepest => exact .failed deepest

theorem agrees_pure (h : k.Fits ts) (v : Option Number) :
    Agrees ts Prod.mk k ((pure v : Reading (Option Number)).run k) (.ok (v, k.cursor ts)) :=
  .ok (.refl h)

theorem agrees_fail {α β : Type} {view : α → Cursor → β} (h : k'.deepest ≤ maxDepth + 1)
    (e : EvalError) : Agrees ts view k ((Reading.fail e : Reading α).run k') (.error e) :=
  .failed h

/-- A value that does not depend on the place. -/
theorem agrees_lift {α : Type} (h : k.Fits ts) (x : Except EvalError α)
    (f : α → Option Number) :
    Agrees ts Prod.mk k ((Reading.lift x >>= fun a => pure (f a) : Reading (Option Number)).run k)
      (x >>= fun a => .ok (f a, k.cursor ts)) := by
  cases x with
  | ok a => exact .ok (.refl h)
  | error e => exact .failed h.deepest

namespace Reading

variable {α : Type}

theorem peek?_bind (f : Option Token → Reading α) :
    (peek? ts >>= f).run k = (f (k.cursor ts).peek?).run k := by
  rw [Counters.peek?_cursor]
  rfl

theorem atMark_bind (m : Mark) (f : Bool → Reading α) :
    (atMark ts m >>= f).run k = (f ((k.cursor ts).atMark m)).run k := by
  rw [Cursor.atMark, Counters.peek?_cursor]
  rfl

theorem atOperand_bind (f : Bool → Reading α) :
    (atOperand ts >>= f).run k = (f (k.cursor ts).atOperand).run k := by
  rw [Cursor.atOperand, Counters.peek?_cursor]
  rfl

theorem offset_bind (f : Nat → Reading α) :
    (offset ts >>= f).run k = (f (k.cursor ts).offset).run k := by
  rw [Counters.offset_cursor]
  rfl

theorem next_bind (f : Option Token → Reading α) :
    (next ts >>= f).run k = (f (k.cursor ts).peek?).run k.advance := by
  rw [Counters.peek?_cursor]
  rfl

theorem atCast_bind (f : Bool → Reading α) :
    (atCast ts >>= f).run k = (f (afterCast false (k.cursor ts).rest).isSome).run k := rfl

theorem step_bind (f : Unit → Reading α) : (step >>= f).run k = (f ()).run k.advance := rfl

theorem get_bind (f : Counters → Reading α) : (get >>= f).run k = (f k).run k := rfl

end Reading

/-- A mark that is expected. -/
theorem expect_agrees (h : k.Fits ts) (m : Mark) :
    Agrees ts (fun _ c => c) k ((Reading.expect ts m).run k) ((k.cursor ts).expect m) := by
  rw [Reading.expect, Reading.atMark_bind, Cursor.expect]
  split
  · next hm =>
    rw [← Counters.cursor_advance]
    exact .ok (h.advance (Cursor.peek?_of_atMark hm))
  · rw [Reading.offset_bind, Reading.peek?_bind]
    exact agrees_fail h.deepest _

theorem enter_cases (ts : List (Token × Nat)) (k : Counters) :
    (k.depth < maxDepth ∧ Reading.enter.run k = .ok () k.opened ∧
      (k.cursor ts).enter = .ok (k.opened.cursor ts)) ∨
    (Reading.enter.run k = .error (.failed .tooDeep) k.opened ∧
      (k.cursor ts).enter = .error .tooDeep) := by
  have raised : Reading.enter.run k =
      (if maxDepth < k.depth + 1 then Reading.fail .tooDeep else pure ()).run k.opened := rfl
  have checked : (k.cursor ts).enter =
      if k.depth < maxDepth then .ok (k.opened.cursor ts) else .error .tooDeep := rfl
  by_cases room : k.depth < maxDepth
  · rw [if_neg (by omega)] at raised
    rw [if_pos room] at checked
    exact .inl ⟨room, raised, checked⟩
  · rw [if_pos (by omega)] at raised
    rw [if_neg room] at checked
    exact .inr ⟨raised, checked⟩

/-- An operand that is opened is closed when it has been read. -/
theorem counted_agrees {reader : Reading (Option Number)} {read : Cursor → Step} (h : k.Fits ts)
    (hr : k.opened.Fits ts →
      Agrees ts Prod.mk k.opened (reader.run k.opened) (read (k.opened.cursor ts))) :
    Agrees ts Prod.mk k ((Reading.counted reader).run k) (counted read (k.cursor ts)) := by
  unfold Reading.counted counted
  rw [EStateM.run_bind]
  rcases enter_cases ts k with ⟨room, raised, checked⟩ | ⟨raised, checked⟩
  · rw [raised, checked]
    dsimp only
    rw [EStateM.run_bind]
    have inner := hr (h.opened room)
    change Agrees ts Prod.mk k _ (read (k.opened.cursor ts) >>= _)
    generalize reader.run k.opened = result at inner ⊢
    generalize read (k.opened.cursor ts) = outcome at inner ⊢
    cases inner with
    | ok leads => exact .ok leads.closed
    | failed deepest => exact .failed deepest
  · rw [raised, checked]
    exact .failed h.opened_deepest

theorem skipped_agrees {reader : Reading (Option Number)} {read : Cursor → Step} {start : Nat}
    (h : Tracks ts start reader read) :
    Tracks ts start (Reading.skipped reader) (skipped read) := by
  intro k hk fits
  let silent : Counters := { k with skipping := true }
  have inner : Agrees ts Prod.mk silent (reader.run silent) (read (silent.cursor ts)) :=
    h silent hk ⟨fits.pos, fits.depth, fits.deepest⟩
  change Agrees ts Prod.mk k ((Reading.skipped reader).run k) (read (silent.cursor ts) >>= _)
  generalize run : reader.run silent = result at inner
  generalize read (silent.cursor ts) = outcome at inner ⊢
  cases inner with
  | @ok v k' leads =>
    have restored : k.Leads ts { k' with skipping := k.skipping } :=
      ⟨⟨leads.fits.pos, leads.fits.depth, leads.fits.deepest⟩, leads.pos, leads.depth, rfl⟩
    rw [Reading.skipped_ok run]
    exact .ok restored
  | failed deepest =>
    rw [Reading.skipped_error run]
    exact .failed deepest

theorem skippedIf_agrees {reader : Reading (Option Number)} {read : Cursor → Step} {start : Nat}
    (h : Tracks ts start reader read) (skip : Bool) :
    Tracks ts start (Reading.skippedIf skip reader) (skippedIf skip read) := by
  cases skip with
  | false => exact h
  | true => exact skipped_agrees h

/-! ## Groups and casts -/

/-- The token that is taken next, and what is left after it. -/
theorem rest_cursor_cons {t : Token} {offset : Nat} {rest : List (Token × Nat)}
    (h : (k.cursor ts).rest = (t, offset) :: rest) :
    (k.cursor ts).peek? = some t ∧ (k.advance.cursor ts).rest = rest := by
  rw [Counters.cursor_advance, Cursor.peek?, Cursor.advance, h]
  exact ⟨rfl, rfl⟩

/-- The cursor after a group that leaves `rest?`, or the failure of a group that is not closed. -/
def closedAt (c : Cursor) : Option (List (Token × Nat)) → Except EvalError Cursor
  | some rest => .ok { c with rest := rest }
  | none => .error (.malformed c.finish .unbalanced)

/-- Taking tokens ends where the parentheses that are open are closed. -/
theorem close_agrees (fuel level : Nat) (h : k.Fits ts) (enough : ts.length < k.pos + fuel) :
    Agrees ts (fun _ c => c) k ((Reading.close ts fuel (level + 1)).run k)
      (closedAt (k.cursor ts) (afterClosing level (k.cursor ts).rest)) := by
  induction fuel generalizing k level with
  | zero => have := h.pos; omega
  | succ fuel ih =>
    rw [Reading.close, Reading.next_bind]
    match left : (k.cursor ts).rest with
    | [] =>
      have last : (k.advance.cursor ts).offset = finishOf ts := by
        rw [Counters.cursor_advance, Cursor.offset, Cursor.advance, left]
        rfl
      rw [Cursor.peek?, left]
      dsimp only [List.head?_nil, Option.map_none]
      rw [Reading.offset_bind, last]
      have deepest : k.advance.deepest ≤ maxDepth + 1 := h.deepest
      exact agrees_fail deepest _
    | (t, o) :: rest =>
      obtain ⟨first, behind⟩ := rest_cursor_cons left
      have moved := h.advance first
      have more (level : Nat) := ih level moved.fits (by dsimp only [Counters.advance]; omega)
      rw [behind] at more
      rw [first]
      split
      · next e =>
        cases e
        exact (more (level + 1)).after moved
      · next e =>
        cases e
        cases level with
        | zero =>
          rw [Reading.close]
          have closed : ({ k.cursor ts with rest := rest } : Cursor) = k.advance.cursor ts := by
            rw [← behind]
            rfl
          rw [afterClosing, closedAt, closed]
          exact .ok moved
        | succ level => exact (more level).after moved
      · next leftParen rightParen e =>
        cases e
        rw [afterClosing_other (fun e => leftParen (by rw [e])) fun e => rightParen (by rw [e])]
        exact (more level).after moved
      · next e => cases e

theorem skipGroup_agrees (h : k.Fits ts) :
    Agrees ts (fun _ c => c) k ((Reading.skipGroup ts).run k) (skipGroup (k.cursor ts)) :=
  (expect_agrees h .leftParen).bind fun _ k' leads _ =>
    close_agrees (ts.length + 1) 0 leads.fits (by omega)

theorem skipArguments_agrees (h : k.Fits ts) :
    Agrees ts (fun _ c => c) k ((Reading.skipArguments ts).run k)
      (skipArguments (k.cursor ts)) := by
  rw [Reading.skipArguments, Reading.atMark_bind, skipArguments]
  split
  · exact skipGroup_agrees h
  · exact .ok (.refl h)

/-- Taking the tokens of a cast ends after the parenthesis that closes it. -/
theorem skipCast_eq {sawType : Bool} {rest : List (Token × Nat)} (fuel : Nat) (h : k.Fits ts)
    (enough : ts.length < k.pos + fuel)
    (cast : afterCast sawType (k.cursor ts).rest = some rest) :
    ∃ k', (Reading.skipCast ts fuel).run k = .ok () k' ∧ k.Leads ts k' ∧
      k'.cursor ts = { k.cursor ts with rest := rest } := by
  induction fuel generalizing k sawType with
  | zero => have := h.pos; omega
  | succ fuel ih =>
    match left : (k.cursor ts).rest with
    | [] =>
      rw [left] at cast
      cases cast
    | (t, o) :: behind =>
      obtain ⟨first, hbehind⟩ := rest_cursor_cons left
      have moved := h.advance first
      rw [left] at cast
      rw [Reading.skipCast, Reading.next_bind, first]
      have onward {saw : Bool} (h : afterCast saw behind = some rest) :
          ∃ k', (Reading.skipCast ts fuel).run k.advance = .ok () k' ∧ k.Leads ts k' ∧
            k'.cursor ts = { k.cursor ts with rest := rest } := by
        rw [← hbehind] at h
        obtain ⟨k', run, leads, place⟩ :=
          ih moved.fits (by dsimp only [Counters.advance]; omega) h
        exact ⟨k', run, moved.trans leads, place⟩
      rw [afterCast.eq_def] at cast
      split at cast
      · next e =>
        cases e
        split at cast
        · exact onward cast
        · cases cast
      · next e =>
        cases e
        split at cast
        · exact onward cast
        · cases cast
      · next e =>
        cases e
        split at cast
        · obtain rfl := Option.some.inj cast
          refine ⟨k.advance, rfl, moved, ?_⟩
          rw [← hbehind]
          rfl
        · cases cast
      · cases cast

theorem name_agrees (resolve : Resolver) (word : String) (h : k.Fits ts) :
    Agrees ts Prod.mk k ((Reading.name ts resolve word).run k)
      (name resolve word (k.cursor ts)) := by
  rw [Reading.name, name]
  split
  · exact (skipGroup_agrees h).bind fun _ k' leads _ => agrees_pure leads.fits _
  · rw [Reading.get_bind, show (k.cursor ts).skipping = k.skipping from rfl]
    split
    · exact (skipArguments_agrees h).bind fun _ k' leads _ => agrees_pure leads.fits _
    · rw [Reading.atMark_bind]
      split
      · exact agrees_fail h.deepest _
      · cases resolve word with
        | some v => exact agrees_pure h _
        | none => exact agrees_fail h.deepest _

/-! ## The bodies of the readers -/

section Bodies

variable {inner tight : Reading (Option Number)} {inner' tight' : Cursor → Step} {start : Nat}

theorem arms_agrees (hm : Tracks ts start inner inner') (hl : Tracks ts start tight tight')
    (v : Option Number) :
    Tracks ts start (Reading.arms ts inner tight v) (arms inner' tight' v) := by
  intro k hk fits
  refine (skippedIf_agrees hm _ k hk fits).bind fun yes k₁ h₁ _ => ?_
  refine (expect_agrees h₁.fits .colon).bind fun _ k₂ h₂ _ => ?_
  have hk₂ : start ≤ k₂.pos := Nat.le_trans hk (h₁.trans h₂).pos
  refine (skippedIf_agrees hl _ k₂ hk₂ h₂.fits).bind fun no k₃ h₃ _ => ?_
  exact agrees_pure h₃.fits _

theorem rightOperand_agrees (h : Tracks ts start tight tight') (op : BinaryOp)
    (v : Option Number) :
    Tracks ts start (Reading.rightOperand tight op v) (rightOperand tight' op v) := by
  intro k hk fits
  unfold Reading.rightOperand rightOperand
  split
  · exact (skipped_agrees h k hk fits).bind fun _ k₁ h₁ _ => agrees_pure h₁.fits _
  · refine (h k hk fits).bind fun r k₁ h₁ _ => ?_
    rw [Reading.get_bind]
    dsimp only
    rw [show (k₁.cursor ts).skipping = k₁.skipping from rfl]
    cases combine op k₁.skipping v r with
    | ok v => exact agrees_pure h₁.fits v
    | error e => exact agrees_fail h₁.fits.deepest e

theorem unaryOperand_agrees (h : Tracks ts start tight tight') (op : UnaryOp) :
    Tracks ts start (Reading.unaryOperand tight op) (unaryOperand tight' op) := by
  intro k hk fits
  refine (h k hk fits).bind fun v k₁ h₁ _ => ?_
  cases v with
  | none => exact agrees_pure h₁.fits _
  | some v => exact agrees_lift h₁.fits _ some

theorem group_agrees (h : Tracks ts start inner inner') :
    Tracks ts start (Reading.group ts inner) (group inner') := by
  intro k hk fits
  refine (h k hk fits).bind fun v k₁ h₁ _ => ?_
  exact (expect_agrees h₁.fits .rightParen).bind fun _ k₂ h₂ _ => agrees_pure h₂.fits _

theorem primary_agrees (resolve : Resolver) (fits : k.Fits ts)
    (hi : Tracks ts (k.pos + 1) inner inner') (ht : Tracks ts (k.pos + 1) tight tight') :
    Agrees ts Prod.mk k ((Reading.primary ts resolve inner tight).run k)
      (primary resolve inner' tight' (k.cursor ts)) := by
  rw [Reading.primary, Reading.offset_bind, Reading.next_bind]
  have deepest : k.advance.deepest ≤ maxDepth + 1 := fits.deepest
  split
  · next h =>
    unfold primary
    rw [h]
    exact agrees_fail deepest _
  · next v h =>
    unfold primary
    rw [h, ← Counters.cursor_advance]
    exact (agrees_pure (fits.advance h).fits _).after (fits.advance h)
  · next v h =>
    unfold primary
    rw [h, ← Counters.cursor_advance]
    exact (agrees_pure (fits.advance h).fits _).after (fits.advance h)
  · next word h =>
    rw [primary_ident h, ← Counters.cursor_advance]
    exact (name_agrees resolve word (fits.advance h).fits).after (fits.advance h)
  · next h =>
    have moved := fits.advance h
    refine Agrees.after ?_ moved
    rw [Reading.atCast_bind]
    cases cast : afterCast false (k.advance.cursor ts).rest with
    | some rest =>
      obtain ⟨k', run, leads, place⟩ := skipCast_eq (ts.length + 1) moved.fits (by omega) cast
      rw [Counters.cursor_advance] at cast place
      rw [primary_cast h cast]
      rw [Option.isSome_some, if_pos rfl, EStateM.run_bind, run]
      exact place ▸ (ht k' leads.pos leads.fits).after leads
    | none =>
      rw [Counters.cursor_advance] at cast
      rw [primary_group h cast, ← Counters.cursor_advance]
      exact group_agrees hi k.advance (Nat.le_refl _) moved.fits
  · next m left h =>
    have moved := fits.advance h
    rw [primary_mark h left, ← Counters.cursor_advance]
    cases m.unary? with
    | some op => exact (unaryOperand_agrees ht op k.advance (Nat.le_refl _) moved.fits).after moved
    | none => exact agrees_fail deepest _

/-- One round of the operators, when what they are followed by is tracked and so are the operators
behind the first one. -/
theorem operators_agrees {resolve : Resolver} {fuel level : Nat} {v : Option Number}
    (fits : k.Fits ts)
    (hs : Tracks ts (k.pos + 1) (Reading.sequence ts resolve fuel) (sequence resolve fuel))
    (he : ∀ level, Tracks ts (k.pos + 1) (Reading.expression ts resolve fuel level)
      (expression resolve fuel level))
    (more : ∀ w k₁, k.advance.Leads ts k₁ →
      Agrees ts Prod.mk k₁ ((Reading.operators ts resolve fuel level w).run k₁)
        (operators resolve fuel level w (k₁.cursor ts))) :
    Agrees ts Prod.mk k ((Reading.operators ts resolve (fuel + 1) level v).run k)
      (operators resolve (fuel + 1) level v (k.cursor ts)) := by
  rw [Reading.operators, Reading.peek?_bind]
  split
  · next word h =>
    have moved := fits.advance h
    rw [operators, h]
    dsimp only
    split
    · rw [Reading.step_bind, ← Counters.cursor_advance]
      exact (more v _ (.refl moved.fits)).after moved
    · exact agrees_pure fits v
  · next h =>
    have moved := fits.advance h
    rw [operators, h]
    dsimp only
    split
    · rw [Reading.step_bind, ← Counters.cursor_advance]
      refine Agrees.after ?_ moved
      exact (arms_agrees hs (he _) v k.advance (Nat.le_refl _) moved.fits).bind
        fun w k₁ h₁ _ => more w k₁ h₁
    · exact agrees_pure fits v
  · next m other h =>
    have moved := fits.advance h
    rw [operators_mark h other]
    cases m.binary? with
    | none => exact agrees_pure fits v
    | some op =>
      dsimp only
      split
      · exact agrees_pure fits v
      · rw [Reading.step_bind, ← Counters.cursor_advance]
        refine Agrees.after ?_ moved
        exact (rightOperand_agrees (he _) op v k.advance (Nat.le_refl _) moved.fits).bind
          fun w k₁ h₁ _ => more w k₁ h₁
  · next noWord noQuestion noMark =>
    rw [operators]
    split
    · next word h => exact absurd h (noWord word)
    · next h => exact absurd h noQuestion
    · next m _ h => exact absurd h (noMark m)
    · exact agrees_pure fits v

end Bodies

/-! ## All readers -/

/-- A reader that takes a token moves the place. -/
theorem Counters.pos_lt_of_advances {r : Step} {v : Option Number}
    (h : Advances (k.cursor ts) r) (hr : r = .ok (v, k'.cursor ts)) : k.pos < k'.pos := by
  have taken := (h v _ hr).2
  rw [length_cursor, length_cursor] at taken
  omega

/-- With `fuel` every reader that it suffices for agrees with the reader on cursors. -/
structure Tracked (resolve : Resolver) (ts : List (Token × Nat)) (fuel : Nat) : Prop where
  sequence : ∀ k : Counters, k.Fits ts → 3 * (ts.length - k.pos) + 3 ≤ fuel →
    Agrees ts Prod.mk k ((Reading.sequence ts resolve fuel).run k)
      (sequence resolve fuel (k.cursor ts))
  sequenceTail : ∀ v (k : Counters), k.Fits ts → 3 * (ts.length - k.pos) + 1 ≤ fuel →
    Agrees ts Prod.mk k ((Reading.sequenceTail ts resolve fuel v).run k)
      (sequenceTail resolve fuel v (k.cursor ts))
  expression : ∀ level (k : Counters), k.Fits ts → 3 * (ts.length - k.pos) + 2 ≤ fuel →
    Agrees ts Prod.mk k ((Reading.expression ts resolve fuel level).run k)
      (expression resolve fuel level (k.cursor ts))
  operands : ∀ v (k : Counters), k.Fits ts → 3 * (ts.length - k.pos) + 2 ≤ fuel →
    Agrees ts Prod.mk k ((Reading.operands ts resolve fuel v).run k)
      (operands resolve fuel v (k.cursor ts))
  operators : ∀ level v (k : Counters), k.Fits ts → 3 * (ts.length - k.pos) + 1 ≤ fuel →
    Agrees ts Prod.mk k ((Reading.operators ts resolve fuel level v).run k)
      (operators resolve fuel level v (k.cursor ts))
  operand : ∀ k : Counters, k.Fits ts → 3 * (ts.length - k.pos) + 1 ≤ fuel →
    Agrees ts Prod.mk k ((Reading.operand ts resolve fuel).run k)
      (operand resolve fuel (k.cursor ts))

theorem steps_tracked (resolve : Resolver) (ts : List (Token × Nat)) (fuel : Nat) :
    Tracked resolve ts fuel := by
  induction fuel with
  | zero => constructor <;> intros <;> omega
  | succ fuel ih =>
    have progress := steps_progress resolve fuel
    -- behind a token that was taken there is fuel for every reader
    have sequence_after {start : Nat} (enough : 3 * (ts.length - start) + 1 ≤ fuel + 1) :
        Tracks ts (start + 1) (Reading.sequence ts resolve fuel) (sequence resolve fuel) :=
      fun k hk fits => ih.sequence k fits (by have := fits.pos; omega)
    have expression_after {start : Nat} (enough : 3 * (ts.length - start) + 1 ≤ fuel + 1)
        (level : Nat) : Tracks ts (start + 1) (Reading.expression ts resolve fuel level)
          (expression resolve fuel level) :=
      fun k hk fits => ih.expression level k fits (by have := fits.pos; omega)
    constructor
    case sequence =>
      intro k fits enough
      rw [Reading.sequence, ConstLookup.Eval.sequence]
      refine (ih.expression _ k fits (by omega)).bind fun v k₁ h₁ read => ?_
      have taken := Counters.pos_lt_of_advances (progress.expression _ _) read
      exact ih.sequenceTail v k₁ h₁.fits (by have := h₁.fits.pos; omega)
    case sequenceTail =>
      intro v k fits enough
      rw [Reading.sequenceTail, ConstLookup.Eval.sequenceTail, Reading.atMark_bind]
      split
      · next comma =>
        have moved := fits.advance (Cursor.peek?_of_atMark comma)
        rw [Reading.step_bind, ← Counters.cursor_advance]
        refine Agrees.after ?_ moved
        refine (expression_after enough _ k.advance (Nat.le_refl _) moved.fits).bind
          fun w k₁ h₁ _ => ?_
        have taken := h₁.pos
        exact ih.sequenceTail w k₁ h₁.fits
          (by have := h₁.fits.pos; dsimp only [Counters.advance] at taken; omega)
      · exact agrees_pure fits v
    case expression =>
      intro level k fits enough
      rw [Reading.expression, ConstLookup.Eval.expression]
      refine counted_agrees fits fun opened => ?_
      have same : k.opened.pos = k.pos := rfl
      refine (ih.operand _ opened (by omega)).bind fun v k₁ h₁ read => ?_
      have taken := Counters.pos_lt_of_advances (progress.operand _) read
      refine (ih.operands v k₁ h₁.fits (by have := h₁.fits.pos; omega)).bind fun w k₂ h₂ _ => ?_
      exact ih.operators level w k₂ h₂.fits (by have := h₂.pos; have := h₂.fits.pos; omega)
    case operands =>
      intro v k fits enough
      rw [Reading.operands, ConstLookup.Eval.operands, Reading.atOperand_bind]
      split
      · refine (ih.operand k fits (by omega)).bind fun w k₁ h₁ read => ?_
        have taken := Counters.pos_lt_of_advances (progress.operand _) read
        exact ih.operands w k₁ h₁.fits (by have := h₁.fits.pos; omega)
      · exact agrees_pure fits v
    case operators =>
      intro level v k fits enough
      refine operators_agrees fits (sequence_after enough) (expression_after enough)
        fun w k₁ h₁ => ?_
      have taken := h₁.pos
      exact ih.operators level w k₁ h₁.fits
        (by have := h₁.fits.pos; dsimp only [Counters.advance] at taken; omega)
    case operand =>
      intro k fits enough
      rw [Reading.operand, ConstLookup.Eval.operand]
      refine counted_agrees fits fun opened => ?_
      exact primary_agrees resolve opened (sequence_after enough) (expression_after enough _)

end Agreement

/-! ## Balance -/

/-- The readers that take a whole phrase: a sequence, an expression, an operand, or one of them
with `skipping` set meanwhile. -/
inductive Phrase where
  | sequence
  | expression (level : Nat)
  | operand
  | skipped (inner : Phrase)

namespace Phrase

/-- The reader of a phrase that counts. -/
def reader (ts : List (Token × Nat)) (resolve : Resolver) (fuel : Nat) :
    Phrase → Reading (Option Number)
  | sequence => Reading.sequence ts resolve fuel
  | expression level => Reading.expression ts resolve fuel level
  | operand => Reading.operand ts resolve fuel
  | skipped inner => Reading.skipped (inner.reader ts resolve fuel)

/-- The reader of a phrase on cursors. -/
def read (resolve : Resolver) (fuel : Nat) : Phrase → Cursor → Step
  | sequence => Eval.sequence resolve fuel
  | expression level => Eval.expression resolve fuel level
  | operand => Eval.operand resolve fuel
  | skipped inner => Eval.skipped (inner.read resolve fuel)

theorem tracks {ts : List (Token × Nat)} (resolve : Resolver) {fuel start : Nat}
    (enough : fuelFor (ts.length - start) ≤ fuel) (phrase : Phrase) :
    Tracks ts start (phrase.reader ts resolve fuel) (phrase.read resolve fuel) := by
  unfold fuelFor at enough
  have steps := steps_tracked resolve ts fuel
  induction phrase with
  | sequence => exact fun k hk fits => steps.sequence k fits (by omega)
  | expression level => exact fun k hk fits => steps.expression level k fits (by omega)
  | operand => exact fun k hk fits => steps.operand k fits (by omega)
  | skipped inner ih => exact skipped_agrees ih

theorem advances (resolve : Resolver) (fuel : Nat) (phrase : Phrase) (c : Cursor) :
    Advances c (phrase.read resolve fuel c) := by
  induction phrase generalizing c with
  | sequence => exact (steps_progress resolve fuel).sequence c
  | expression level => exact (steps_progress resolve fuel).expression level c
  | operand => exact (steps_progress resolve fuel).operand c
  | skipped inner ih => exact skipped_advances ih c

end Phrase

/-- Every reader of a phrase ends, with the value or the failure of the reader on cursors. When it
succeeds, the depth and the flag are as before and it has taken at least one of the tokens; on no
path the depth exceeds the limit by more than one. A flat chain is never too deep. -/
theorem readers_balanced (resolve : Resolver) :
    (∀ (ts : List (Token × Nat)) (phrase : Phrase) (k : Counters) (fuel : Nat),
      k.pos ≤ ts.length → k.depth ≤ maxDepth → k.deepest = k.depth →
      fuelFor (ts.length - k.pos) ≤ fuel →
      match (phrase.reader ts resolve fuel).run k with
      | .ok v k' =>
        phrase.read resolve fuel (k.cursor ts) = .ok (v, k'.cursor ts) ∧
        k'.depth = k.depth ∧ k'.skipping = k.skipping ∧
        k.pos < k'.pos ∧ k'.pos ≤ ts.length ∧ k'.deepest ≤ maxDepth + 1
      | .error (.failed e) k' =>
        phrase.read resolve fuel (k.cursor ts) = .error e ∧ k'.deepest ≤ maxDepth + 1
      | .error .outOfFuel _ => False) ∧
    (∀ ts : List (Token × Nat), FlatChain (ts.map Prod.fst) →
      tokens resolve ts ≠ .error .tooDeep) ∧
    ∀ (text : String) (ts : List (Token × Nat)),
      Lexer.tokens (HexShield.shield text).toList = .ok ts → FlatChain (ts.map Prod.fst) →
      evaluate resolve text ≠ .error .tooDeep := by
  refine ⟨fun ts phrase k fuel place depth fresh enough => ?_, fun ts => tokens_flat resolve,
    fun text ts => evaluate_flat resolve⟩
  have fits : k.Fits ts := ⟨place, depth, by omega⟩
  have agrees := phrase.tracks resolve enough k (Nat.le_refl _) fits
  have advances := phrase.advances resolve fuel (k.cursor ts)
  generalize (phrase.reader ts resolve fuel).run k = result at agrees ⊢
  generalize phrase.read resolve fuel (k.cursor ts) = outcome at agrees advances ⊢
  cases agrees with
  | ok leads =>
    exact ⟨rfl, leads.depth, leads.skipping, Counters.pos_lt_of_advances advances rfl,
      leads.fits.pos, leads.fits.deepest⟩
  | failed deepest => exact ⟨rfl, deepest⟩

/-- Literals with a suffix, an operator and a comma between them. -/
def chainTokens : List (Token × Nat) :=
  [(.int 7, 0), (.ident "u", 2), (.mark .plus, 4), (.int 2, 6), (.mark .comma, 7), (.int 3, 9)]

/-- A chain needs three operands more than are open: the limit lets it through inside of 197
others, and refuses it inside of 198. -/
theorem readers_balanced_chain :
    let resolve : Resolver := fun _ => none
    let start (depth : Nat) : Counters :=
      { pos := 0, depth := depth, skipping := false, deepest := depth }
    (∀ depth ∈ [197, 198], (start depth).pos ≤ chainTokens.length ∧ depth ≤ maxDepth ∧
      (start depth).deepest = (start depth).depth ∧
      fuelFor (chainTokens.length - (start depth).pos) ≤ fuelFor 6) ∧
    (∃ v k, (Phrase.sequence.reader chainTokens resolve (fuelFor 6)).run (start 197) = .ok v k ∧
      Phrase.sequence.read resolve (fuelFor 6) ((start 197).cursor chainTokens) =
        .ok (v, k.cursor chainTokens) ∧
      k.depth = 197 ∧ k.skipping = false ∧ 0 < k.pos ∧ k.pos ≤ 6 ∧
      k.deepest ≤ maxDepth + 1) ∧
    (∃ k, (Phrase.sequence.reader chainTokens resolve (fuelFor 6)).run (start 198) =
        .error (.failed .tooDeep) k ∧ k.deepest ≤ maxDepth + 1) ∧
    Lexer.tokens (HexShield.shield "7 u + 2, 3").toList = .ok chainTokens ∧
    FlatChain (chainTokens.map Prod.fst) ∧ tokens resolve chainTokens ≠ .error .tooDeep ∧
    evaluate resolve "7 u + 2, 3" ≠ .error .tooDeep := by
  intro resolve start
  obtain ⟨balanced, unnested, flat⟩ := readers_balanced resolve
  have through := balanced chainTokens .sequence (start 197) (fuelFor 6) (by decide) (by decide) rfl
    (Nat.le_refl _)
  have refused := balanced chainTokens .sequence (start 198) (fuelFor 6) (by decide) (by decide) rfl
    (Nat.le_refl _)
  obtain ⟨v, k, ends⟩ : ∃ v k,
      (Phrase.sequence.reader chainTokens resolve (fuelFor 6)).run (start 197) = .ok v k :=
    ⟨_, _, rfl⟩
  obtain ⟨k', deep⟩ : ∃ k,
      (Phrase.sequence.reader chainTokens resolve (fuelFor 6)).run (start 198) =
        .error (.failed .tooDeep) k := ⟨_, rfl⟩
  have split : Lexer.tokens (HexShield.shield "7 u + 2, 3").toList = .ok chainTokens := by
    have marked : HexShield.shield "7 u + 2, 3" = "7 u + 2, 3" := by decide +kernel
    rw [marked]
    rfl
  have chain : FlatChain (chainTokens.map Prod.fst) := by
    have last : Continues 0 [] := .finish
    exact ⟨_, _, _, rfl, trivial,
      .suffix (by decide) (.operator rfl trivial (.comma trivial last))⟩
  rw [ends] at through
  rw [deep] at refused
  exact ⟨by decide, ⟨v, k, ends, through⟩, ⟨k', deep, refused.2⟩, split, chain,
    unnested _ chain, flat _ _ split chain⟩

end ConstLookup.Eval
