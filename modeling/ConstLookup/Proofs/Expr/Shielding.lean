import ConstLookup.Proofs.Expr.Spelling

/-!
  Marking hexadecimal literals twice is marking them once (`shield_shield`): the marked form of a
  literal holds no literal, and marking changes no character that stands before one. So an
  expression evaluates like its marked form (`evaluate_shield`).
-/

namespace ConstLookup

open ConstLookup.Text

namespace HexShield

theorem head?_shieldFrom (inWord : Bool) (cs : List Char) :
    (shieldFrom inWord cs).head? = cs.head? := by
  rw [shieldFrom.eq_def]
  split
  · rfl
  · split <;> rfl
  · rfl

/-- The digits of a marked literal are no literal. -/
theorem shieldFrom_digits {digits : List Char} (h : ∀ c ∈ digits, isHexDigit c = true)
    (inWord : Bool) (rest : List Char) :
    shieldFrom inWord (digits ++ '\'' :: rest) = digits ++ '\'' :: shieldFrom false rest := by
  induction digits generalizing inWord with
  | nil => exact shieldFrom_copies (.inr (.inl (by decide)))
  | cons d ds ih =>
    have hds : ∀ c ∈ ds, isHexDigit c = true := fun c hc => h c (List.mem_cons_of_mem d hc)
    rw [List.cons_append, shieldFrom_copies, ih hds]
    · rfl
    · refine .inr (.inr fun x ys e hx => ?_)
      have : isHexDigit x = true ∨ x = '\'' := by
        cases ds with
        | nil => exact .inr (List.cons.inj e).1.symm
        | cons d' ds => exact .inl ((List.cons.inj e).1 ▸ hds d' List.mem_cons_self)
      rcases hx with rfl | rfl <;> exact absurd this (by decide)

/-- What is marked is not marked again. After a literal the marked text stands behind a quote
and not behind a word, but no digit follows there. -/
theorem shieldFrom_shieldFrom (inWord again : Bool) (cs : List Char)
    (h : again = inWord ∨ cs.head? ≠ some '0') :
    shieldFrom again (shieldFrom inWord cs) = shieldFrom inWord cs := by
  fun_induction shieldFrom inWord cs generalizing again with
  | case1 inWord => rw [shieldFrom]
  | case2 inWord x cs literal ih =>
    have digits : ∀ c ∈ cs.takeWhile isHexDigit, isHexDigit c = true :=
      List.all_eq_true.mp List.all_takeWhile
    have rest : (cs.dropWhile isHexDigit).head? ≠ some '0' := fun zero =>
      absurd (head_dropWhile isHexDigit cs '0' zero) (by decide)
    rw [shieldFrom_copies (c := '0'), shieldFrom_copies (c := 'x') (.inr (.inl (by decide))),
      shieldFrom_copies (c := '\'') (.inr (.inl (by decide))), shieldFrom_digits digits,
      ih false (.inr rest)]
    refine .inr (.inr fun y ys e _ => ?_)
    obtain ⟨-, rfl⟩ := List.cons.inj e
    rintro _ ⟨⟩
    decide
  | case3 inWord x cs plain ih =>
    have same : again = inWord := by simpa using h
    subst same
    rw [shieldFrom_copies, show isWord '0' = true from by decide, ih true (.inl rfl)]
    cases again with
    | true => exact .inl rfl
    | false =>
      refine .inr (.inr fun y ys e hy => ?_)
      obtain rfl : x = y := by
        have head := head?_shieldFrom true (x :: cs)
        rw [e] at head
        exact (Option.some.inj head).symm
      have ne : x ≠ '0' := by rcases hy with rfl | rfl <;> decide
      rw [shieldFrom_copies (.inr (.inl ne))] at e
      obtain ⟨-, rfl⟩ := List.cons.inj e
      rw [head?_shieldFrom]
      refine takeWhile_isEmpty.mp ?_
      simpa [hy] using plain
  | case4 inWord c cs other ih =>
    rw [shieldFrom_copies, ih _ (.inl rfl)]
    refine .inr ((ne_zero_or_nil other).imp_right ?_)
    rintro rfl x ys e
    rw [shieldFrom] at e
    cases e

/-- Marking is idempotent. -/
theorem shield_shield (s : String) : shield (shield s) = shield s := by
  rw [shield, shield, String.toList_ofList, shieldFrom_shieldFrom _ _ _ (.inl rfl)]

end HexShield

theorem evaluate_shield (resolve : Resolver) (text : String) :
    evaluate resolve (HexShield.shield text) = evaluate resolve text := by
  rw [evaluate, HexShield.shield_shield, evaluate]

end ConstLookup
