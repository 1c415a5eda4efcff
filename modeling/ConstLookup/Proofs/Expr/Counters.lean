import ConstLookup.Proofs.Expr.Progress

/-!
  The readers with counters that are changed by hand: a place in the tokens, the number of open
  operands and the flag `skipping`. A reader that fails leaves the counters as they stand, and one
  that is out of fuel says so. `Counters.deepest` keeps the greatest depth that was reached.
-/

namespace ConstLookup.Eval

/-- What the readers count while they read. -/
structure Counters where
  /-- How many tokens have been taken. -/
  pos : Nat
  /-- How many operands are open. -/
  depth : Nat
  /-- The operand being read cannot matter. -/
  skipping : Bool
  /-- The greatest depth so far. -/
  deepest : Nat

namespace Counters

/-- Move past one token. -/
def advance (k : Counters) : Counters := { k with pos := k.pos + 1 }

/-- Count one operand more. -/
def opened (k : Counters) : Counters :=
  { k with depth := k.depth + 1, deepest := max k.deepest (k.depth + 1) }

/-- Count one operand less. -/
def closed (k : Counters) : Counters := { k with depth := k.depth - 1 }

/-- The cursor at the place of the counters. -/
def cursor (ts : List (Token × Nat)) (k : Counters) : Cursor where
  rest := ts.drop k.pos
  finish := finishOf ts
  depth := k.depth
  skipping := k.skipping

/-- The place lies in the tokens or at their end, and no depth is or was out of bounds. -/
structure Fits (ts : List (Token × Nat)) (k : Counters) : Prop where
  pos : k.pos ≤ ts.length
  depth : k.depth ≤ maxDepth
  deepest : k.deepest ≤ maxDepth + 1

/-- `k'` is what a reader that succeeds may leave at `k`. -/
structure Leads (ts : List (Token × Nat)) (k k' : Counters) : Prop where
  fits : k'.Fits ts
  pos : k.pos ≤ k'.pos
  depth : k'.depth = k.depth
  skipping : k'.skipping = k.skipping

section Cursor

variable {ts : List (Token × Nat)} {k k' k'' : Counters}

theorem Leads.refl (h : k.Fits ts) : k.Leads ts k := ⟨h, Nat.le_refl _, rfl, rfl⟩

theorem Leads.trans (h : k.Leads ts k') (h' : k'.Leads ts k'') : k.Leads ts k'' :=
  ⟨h'.fits, Nat.le_trans h.pos h'.pos, h'.depth.trans h.depth, h'.skipping.trans h.skipping⟩

theorem peek?_cursor : (k.cursor ts).peek? = ts[k.pos]?.map (·.1) := by
  rw [Cursor.peek?, cursor, List.head?_drop]

theorem offset_cursor : (k.cursor ts).offset = (ts[k.pos]?.map (·.2)).getD (finishOf ts) := by
  rw [Cursor.offset, cursor, List.head?_drop]

@[simp] theorem cursor_advance : k.advance.cursor ts = (k.cursor ts).advance := by
  simp only [cursor, advance, Cursor.advance, List.tail_drop]

theorem length_cursor : (k.cursor ts).rest.length = ts.length - k.pos := List.length_drop

theorem pos_lt {t : Token} (h : (k.cursor ts).peek? = some t) : k.pos < ts.length := by
  have := Cursor.length_advance_lt h
  rw [length_cursor] at this
  omega

theorem Fits.opened_deepest (h : k.Fits ts) : k.opened.deepest ≤ maxDepth + 1 :=
  Nat.max_le.mpr ⟨h.deepest, Nat.succ_le_succ h.depth⟩

theorem Fits.opened (h : k.Fits ts) (room : k.depth < maxDepth) : k.opened.Fits ts :=
  ⟨h.pos, room, h.opened_deepest⟩

/-- Closing the operand that was opened restores the depth. -/
theorem Leads.closed (h : k.opened.Leads ts k') : k.Leads ts k'.closed := by
  have depth : k'.depth = k.depth + 1 := h.depth
  have restored : k'.closed.depth = k.depth := by rw [Counters.closed, depth, Nat.add_sub_cancel]
  have below : k'.closed.depth ≤ k'.depth := Nat.sub_le _ _
  exact ⟨⟨h.fits.pos, Nat.le_trans below h.fits.depth, h.fits.deepest⟩, h.pos, restored,
    h.skipping⟩

theorem Fits.advance (h : k.Fits ts) {t : Token} (ht : (k.cursor ts).peek? = some t) :
    k.Leads ts k.advance :=
  ⟨⟨pos_lt ht, h.depth, h.deepest⟩, Nat.le_succ _, rfl, rfl⟩

end Cursor

end Counters

/-- Why a reader gives no value. -/
inductive Stop where
  | failed (e : EvalError)
  | outOfFuel

/-- A reader that changes the counters, also when it fails. -/
abbrev Reading := EStateM Stop Counters

namespace Reading

section Steps

variable (ts : List (Token × Nat))

/-- The token at the place. -/
def peek? : Reading (Option Token) := do
  return ts[(← get).pos]?.map (·.1)

/-- The token at the place is the mark `m`. -/
def atMark (m : Mark) : Reading Bool := do
  return ((← peek? ts).map (Token.isMark m)).getD false

/-- The token at the place may begin an operand. -/
def atOperand : Reading Bool := do
  return ((← peek? ts).map Token.startsOperand).getD false

/-- The offset of the token at the place. -/
def offset : Reading Nat := do
  return (ts[(← get).pos]?.map (·.2)).getD (finishOf ts)

/-- Move past one token. -/
def step : Reading Unit := modify Counters.advance

/-- Take one token; at the end the place moves as well. -/
def next : Reading (Option Token) := do
  let token ← peek? ts
  step
  return token

/-- Give up. -/
def fail {α : Type} (e : EvalError) : Reading α := throw (.failed e)

/-- An outcome that does not depend on the place. -/
def lift {α : Type} : Except EvalError α → Reading α
  | .ok a => return a
  | .error e => fail e

/-- Move past the mark `m`, which must come next. -/
def expect (m : Mark) : Reading Unit := do
  if ← atMark ts m then step else fail (.malformed (← offset ts) (.expected m (← peek? ts)))

/-- Open an operand. The count is raised before it is compared with the limit. -/
def enter : Reading Unit := do
  modify Counters.opened
  if maxDepth < (← get).depth then fail .tooDeep

/-- Close an operand. -/
def leave : Reading Unit := modify Counters.closed

/-- Read with one operand more open; after a failure it stays open. -/
def counted (read : Reading (Option Number)) : Reading (Option Number) := do
  enter
  let v ← read
  leave
  return v

/-- Read with `skipping` set, and restore it, also after a failure. -/
def skipped (read : Reading (Option Number)) : Reading (Option Number) := fun k =>
  match read.run { k with skipping := true } with
  | .ok v k' => .ok v { k' with skipping := k.skipping }
  | .error e k' => .error e { k' with skipping := k.skipping }

theorem skipped_ok {read : Reading (Option Number)} {k k' : Counters} {v : Option Number}
    (h : read.run { k with skipping := true } = .ok v k') :
    (skipped read).run k = .ok v { k' with skipping := k.skipping } := by
  rw [EStateM.run, skipped, h]

theorem skipped_error {read : Reading (Option Number)} {k k' : Counters} {e : Stop}
    (h : read.run { k with skipping := true } = .error e k') :
    (skipped read).run k = .error e { k' with skipping := k.skipping } := by
  rw [EStateM.run, skipped, h]

/-- Read with `skipping` set if `skip` holds. -/
def skippedIf (skip : Bool) (read : Reading (Option Number)) : Reading (Option Number) :=
  if skip then skipped read else read

/-- Take tokens until as many parentheses are closed as were open. -/
def close : Nat → Nat → Reading Unit
  | _, 0 => return ()
  | 0, _ + 1 => throw .outOfFuel
  | fuel + 1, level + 1 => do
    match ← next ts with
    | some (.mark .leftParen) => close fuel (level + 2)
    | some (.mark .rightParen) => close fuel level
    | some _ => close fuel (level + 1)
    | none => fail (.malformed (← offset ts) .unbalanced)

/-- Move past a parenthesised group. -/
def skipGroup : Reading Unit := do
  expect ts .leftParen
  close ts (ts.length + 1) 1

/-- Whether a cast begins after the opening parenthesis that was taken; the place stays. -/
def atCast : Reading Bool := do
  return (afterCast false (ts.drop (← get).pos)).isSome

/-- Take the tokens up to a closing parenthesis. -/
def skipCast : Nat → Reading Unit
  | 0 => throw .outOfFuel
  | fuel + 1 => do
    match ← next ts with
    | some (.mark .rightParen) | none => return ()
    | some _ => skipCast fuel

/-- Move past the arguments of a name, if it has any. -/
def skipArguments : Reading Unit := do
  if ← atMark ts .leftParen then skipGroup ts

/-- The value of a name. -/
def name (resolve : Resolver) (word : String) : Reading (Option Number) := do
  if annotations.contains word then
    skipGroup ts
    return none
  else if (← get).skipping then
    skipArguments ts
    return some (.int 0)
  else if word = "sizeof" || word = "_Alignof" || (← atMark ts .leftParen) then
    fail (.unsupported s!"{word}(...)")
  else
    match resolve word with
    | some v => return some v
    | none => fail (.unknownSymbol word)

/-- The two arms of a conditional after its question mark. -/
def arms (middle last : Reading (Option Number)) (condition : Option Number) :
    Reading (Option Number) := do
  let taken := condition.map Number.isTrue
  let yes ← skippedIf (taken = some false) middle
  expect ts .colon
  let no ← skippedIf (taken = some true) last
  return choose condition yes no

/-- The right operand of a binary operator with the left operand `v`, and what the operator
makes of the two. -/
def rightOperand (right : Reading (Option Number)) (op : BinaryOp) (v : Option Number) :
    Reading (Option Number) := do
  if decides op v then
    let _ ← skipped right
    return some (.ofBool (op = .or))
  else
    let r ← right
    lift (combine op (← get).skipping v r)

/-- What a unary operator makes of its operand. -/
def unaryOperand (inner : Reading (Option Number)) (op : UnaryOp) : Reading (Option Number) := do
  match ← inner with
  | some v => return some (← lift (guarded (← get).skipping (op.apply v)))
  | none => return none

/-- A parenthesised sequence after its opening parenthesis. -/
def group (inner : Reading (Option Number)) : Reading (Option Number) := do
  let v ← inner
  expect ts .rightParen
  return v

/-- One operand, with the readers of a sequence and of the operand of a unary operator given. -/
def primary (resolve : Resolver) (inner tight : Reading (Option Number)) :
    Reading (Option Number) := do
  let start ← offset ts
  match ← next ts with
  | none => fail (.malformed start .unexpectedEnd)
  | some (.int v) => return some (.int v)
  | some (.float v) => return some (.float v)
  | some (.ident word) => name ts resolve word
  | some (.mark .leftParen) =>
    if ← atCast ts then
      skipCast ts (ts.length + 1)
      tight
    else group ts inner
  | some (.mark m) =>
    match m.unary? with
    | some op => unaryOperand tight op
    | none => fail (.malformed start (.unexpected (.mark m)))

end Steps

/-! ## The readers -/

section Readers

variable (ts : List (Token × Nat)) (resolve : Resolver)

mutual

/-- Expressions separated by commas; the last one is the value. -/
def sequence : Nat → Reading (Option Number)
  | 0 => throw .outOfFuel
  | fuel + 1 => do
    let v ← expression fuel conditionalPrecedence
    sequenceTail fuel v

/-- The part of a sequence after an expression with value `v`. -/
def sequenceTail : Nat → Option Number → Reading (Option Number)
  | 0, _ => throw .outOfFuel
  | fuel + 1, v => do
    if ← atMark ts .comma then
      step
      let v ← expression fuel conditionalPrecedence
      sequenceTail fuel v
    else return v

/-- An expression whose binary operators all bind tighter than `level`. -/
def expression : Nat → Nat → Reading (Option Number)
  | 0, _ => throw .outOfFuel
  | fuel + 1, level => counted do
    let v ← operand fuel
    let v ← operands fuel v
    operators fuel level v

/-- The operand after operands without a value. -/
def operands : Nat → Option Number → Reading (Option Number)
  | 0, _ => throw .outOfFuel
  | fuel + 1, v => do
    if v.isNone && (← atOperand ts) then
      let v ← operand fuel
      operands fuel v
    else return v

/-- The operators after an expression with value `v`, as far as they bind tighter than
`level`. -/
def operators : Nat → Nat → Option Number → Reading (Option Number)
  | 0, _, _ => throw .outOfFuel
  | fuel + 1, level, v => do
    match ← peek? ts with
    | some (.ident word) =>
      if isIntSuffix word then
        step
        operators fuel level v
      else return v
    | some (.mark .question) =>
      if level ≤ conditionalPrecedence then
        step
        let v ← arms ts (sequence fuel) (expression fuel conditionalPrecedence) v
        operators fuel level v
      else return v
    | some (.mark m) =>
      match m.binary? with
      | none => return v
      | some op =>
        if op.precedence ≤ level then return v
        else
          step
          let v ← rightOperand (expression fuel op.precedence) op v
          operators fuel level v
    | _ => return v

/-- One operand, counted as open while it is read. -/
def operand : Nat → Reading (Option Number)
  | 0 => throw .outOfFuel
  | fuel + 1 => counted (primary ts resolve (sequence fuel) (expression fuel unaryPrecedence))

end

end Readers

end Reading

end ConstLookup.Eval
