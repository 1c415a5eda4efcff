import ConstLookup.Proofs.Expr.HexLiteral
import ConstLookup.Proofs.Symbol.History
import ConstLookup.Proofs.Symbol.Refolding

/-!
  Folding tables whose expressions are marked. An expression and its marked form evaluate alike,
  so a run over marked expressions does what the run over the plain ones does, and reports the
  same symbols for the same reasons (`fold_marked`). What a run leaves in the table is marked
  already (`marked_fold`), and is read as if it had been left plain.
-/

namespace ConstLookup.Fold

/-! ## Marked work -/

/-- A symbol without a number, with its expression marked. -/
def Pending.marked (p : Pending) : Pending := { p with text := HexShield.shield p.text }

/-- A skipped symbol, with its expression marked. -/
def Skipped.marked (s : Skipped) : Skipped := { s with symbol := s.symbol.marked }

/-- A report on the same symbols, with their expressions marked. -/
def Report.marked (r : Report) : Report := { r with skipped := r.skipped.map Skipped.marked }

/-- A pass over the same symbols, with their expressions marked. -/
def Pass.marked (r : Pass) : Pass where
  table := r.table
  resolved := r.resolved
  failed := r.failed.map Skipped.marked
  waiting := r.waiting.map fun (p, missing) => (p.marked, missing)

/-- A pass over marked expressions finds what the pass over the plain ones finds. -/
theorem pass_marked (t : SymbolTable) (work : List Pending) :
    pass t (work.map Pending.marked) = (pass t work).marked := by
  have same (known : Resolver) (p : Pending) :
      evaluate known p.marked.text = evaluate known p.text := evaluate_shield known p.text
  fun_induction pass t work with
  | case1 => rfl
  | case2 t p work v e r ih =>
    rw [List.map_cons, pass, same, e]
    dsimp only
    rw [show p.marked.name = p.name from rfl, ih]
    rfl
  | case3 t p work e r ih =>
    rw [List.map_cons, pass, same, e]
    dsimp only
    rw [ih]
    rfl
  | case4 t p work x e r ih =>
    rw [List.map_cons, pass, same, e]
    dsimp only
    rw [ih]
    rfl
  | case5 t p work cause known e r ih =>
    rw [List.map_cons, pass, same, e]
    cases cause with
    | unknownSymbol x => exact absurd rfl (known x)
    | _ =>
      dsimp only
      rw [ih]
      rfl

theorem passes_marked (more : Nat) (t : SymbolTable) (work : List Pending) :
    passes more t (work.map Pending.marked) =
      ((passes more t work).1, (passes more t work).2.marked) := by
  have names (r : Pass) :
      r.marked.waiting.map (·.1) = (r.waiting.map (·.1)).map Pending.marked := by
    simp [Pass.marked]
  induction more generalizing t work with
  | zero =>
    rw [passes, passes, pass_marked]
    simp [Report.marked, Pass.marked, Skipped.marked]
  | succ more ih =>
    rw [passes, passes, pass_marked]
    dsimp only
    rw [names, ih, show (pass t work).marked.resolved = (pass t work).resolved from rfl]
    split
    next => simp [Report.marked, Pass.marked, Skipped.marked]
    next => simp [Report.marked, Pass.marked]

/-! ## Marked tables -/

theorem marked_marked (t : SymbolTable) : marked (marked t) = marked t := by
  refine SymbolTable.mapValues_eq_self fun s hs => ?_
  rw [marked, SymbolTable.mapValues, SymbolTable.toList, Array.toList_map] at hs
  obtain ⟨s', -, rfl⟩ := List.mem_map.mp hs
  cases s'.value with
  | number v => rfl
  | expr text => exact congrArg SymbolValue.expr (HexShield.shield_shield text)

theorem pending_marked (t : SymbolTable) :
    pending (marked t) = (pending t).map Pending.marked := by
  rw [pending, pending, marked, SymbolTable.mapValues, SymbolTable.toList, Array.toList_map,
    List.filterMap_map, List.map_filterMap]
  refine List.filterMap_congr fun s _ => ?_
  cases value : s.value <;> simp [value, SymbolValue.mapExpr, Pending.marked]

/-- A run over marked expressions does what the run over the plain ones does, and reports the same
symbols with their expressions marked. -/
theorem fold_marked (maxPasses : Nat) (t : SymbolTable) :
    fold maxPasses (marked t) = ((fold maxPasses t).1, (fold maxPasses t).2.marked) := by
  have size : passBound maxPasses (marked t) = passBound maxPasses t := by
    simp [passBound, SymbolTable.size, marked, SymbolTable.mapValues]
  have start : fold maxPasses (marked t) = passes (passBound maxPasses (marked t) - 1)
      (marked (marked t)) (pending (marked t)) := rfl
  rw [start, size, marked_marked, pending_marked, passes_marked]
  rfl

/-- What a run leaves is marked. -/
theorem marked_fold (maxPasses : Nat) (t : SymbolTable) :
    marked (fold maxPasses t).1 = (fold maxPasses t).1 := by
  refine SymbolTable.mapValues_eq_self fun s hs => ?_
  obtain ⟨first, -, -, refolds⟩ := exists_of_mem_fold hs
  cases value : s.value with
  | number v => rfl
  | expr text =>
    rw [value] at refolds
    generalize first.value = old at refolds
    cases refolds with
    | marked original => exact congrArg SymbolValue.expr (HexShield.shield_shield original)

/-- Marking is settled after one run over a text. Marking a marked text changes nothing; marking
replaces the literals of the text, in its cut into literals and other characters, and copies all
else. So the expressions that a folding run leaves stay as they are in a second run, and that run
does with them what it does with the expressions that they are the marked forms of. -/
theorem shield_settled :
    (∀ text : String, HexShield.shield (HexShield.shield text) = HexShield.shield text ∧
      (∃ ps, HexShield.joined ps = text.toList ∧ HexShield.Cut [] ps) ∧
      ∀ ps, HexShield.joined ps = text.toList → HexShield.Cut [] ps →
        (HexShield.shield text).toList = HexShield.joinedMarked ps) ∧
    ∀ (maxPasses again : Nat) (t : SymbolTable), let once := (fold maxPasses t).1
      marked once = once ∧ ∀ plain, marked plain = once →
        fold again once = ((fold again plain).1, (fold again plain).2.marked) := by
  refine ⟨fun text => ⟨HexShield.shield_shield text, HexShield.exists_cut [] _, ?_⟩, ?_⟩
  · intro ps same cut
    have marks := HexShield.shieldFrom_cut cut
    rw [HexShield.shield, String.toList_ofList, ← same, ← marks]
    rfl
  · intro maxPasses again t once
    refine ⟨marked_fold maxPasses t, fun plain same => ?_⟩
    rw [← same, fold_marked]

end ConstLookup.Fold
