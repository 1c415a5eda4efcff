import ConstLookup.Source.Token

/-!
  Text with conditional blocks. A block between `#if` and `#endif` has a test, a body and what
  stands in for the body when the test fails; a further branch with its own test is a block that
  stands in. Such a text is read through with a state that tests look at and contents change
  (`run`): of every block only the branch taken is read.
-/

namespace ConstLookup.Source

/-- Contents in order, with conditional blocks between them. -/
inductive Blocks (α : Type) where
  | done
  | content (a : α) (rest : Blocks α)
  | conditional (test : Test) (body otherwise rest : Blocks α)

namespace Blocks

/-- One text after another. -/
def append {α : Type} : Blocks α → Blocks α → Blocks α
  | done, other => other
  | content a rest, other => content a (rest.append other)
  | conditional test body otherwise rest, other =>
    conditional test body otherwise (rest.append other)

/-- Drop the first contents and blocks, as many as given. -/
def drop {α : Type} : Nat → Blocks α → Blocks α
  | n + 1, content _ rest => rest.drop n
  | n + 1, conditional _ _ _ rest => rest.drop n
  | _, blocks => blocks

/-- Read a text: `holds` decides a test, `step` takes a content. -/
def run {α σ : Type} (holds : σ → Test → Bool) (step : σ → α → σ) : σ → Blocks α → σ
  | s, done => s
  | s, content a rest => run holds step (step s a) rest
  | s, conditional test body otherwise rest =>
    run holds step
      (if holds s test then run holds step s body else run holds step s otherwise) rest

/-! ## Reading blocks from the end of a text -/

/-- The branches of an open block that are read: the last one read, what stands in for it, and
the contents of all branches after it. -/
structure Level where
  branch : Blocks Token := done
  otherwise : Blocks Token := done
  later : Blocks Token := done

/-- The contents of all branches of a level. -/
def Level.all (l : Level) : Blocks Token := l.branch.append l.later

/-- The levels after a token that stands before them; the first level is the innermost. A block
that does not end reaches to the end of the text. The last branch of a block reaches to the end
of the block, whatever further branches stand in it. -/
def before (t : Token) : Level × List Level → Level × List Level
  | (inner, outer) =>
    match t.kind with
    | .directive .endif => ({}, inner :: outer)
    | .directive .otherwise => ({ otherwise := inner.all, later := inner.all }, outer)
    | .directive (.elseOpens test) =>
      ({ otherwise := conditional test inner.branch inner.otherwise done, later := inner.all },
        outer)
    | .directive (.opens test) =>
      match outer with
      | next :: outer =>
        ({ next with branch := conditional test inner.branch inner.otherwise next.branch }, outer)
      | [] => ({ branch := conditional test inner.branch inner.otherwise done }, [])
    | _ => ({ inner with branch := content t inner.branch }, outer)

/-- The blocks that tokens make up. An end without a block is left out. -/
def ofTokens (ts : List Token) : Blocks Token :=
  let (inner, outer) := ts.foldr before ({}, [])
  outer.foldl (fun blocks level => blocks.append level.all) inner.all

end Blocks

end ConstLookup.Source
