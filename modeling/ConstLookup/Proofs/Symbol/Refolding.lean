import ConstLookup.Proofs.Expr.Shielding
import ConstLookup.Proofs.Symbol.FixedPoint
import Mathlib.Data.List.Perm.Subperm

/-!
  Folding again and folding more. What a folding run with enough passes has settled stays as it
  is: a second run resolves nothing, in one pass, and gives the same reasons
  (`fold_idempotent`); and in a table with further symbols every number stays, and so does every
  reason but an unknown name (`fold_larger`). Both follow from the least fixed point: the
  reason for a symbol is read off its text under the final numbers (`Reached.skips_iff_reason`).
-/

namespace ConstLookup

namespace SymbolTable

theorem mapValues_eq_self {t : SymbolTable} {f : SymbolValue → SymbolValue}
    (h : ∀ s ∈ t.toList, f s.value = s.value) : t.mapValues f = t := by
  obtain ⟨entries, index, index_iff⟩ := t
  have same : entries.map (fun s => { s with value := f s.value }) = entries := by
    refine Array.ext (Array.size_map ..) fun i hi hi' => ?_
    rw [Array.getElem_map, h _ (Array.mem_toList_iff.mpr (Array.getElem_mem hi'))]
  simp only [mapValues, same]

/-- A table that holds all symbols of another one with their values is at least as large. -/
theorem size_le_of_larger {t t' : SymbolTable}
    (h : ∀ name v, t.value? name = some v → t'.value? name = some v) : t.size ≤ t'.size := by
  have names : (t.toList.map Symbol.name) ⊆ t'.toList.map Symbol.name := by
    intro name mem
    obtain ⟨s, hs, rfl⟩ := List.mem_map.mp mem
    obtain ⟨s', hs', same, -⟩ := value?_eq_some_iff.mp
      (h s.name s.value (value?_eq_some_iff.mpr ⟨s, hs, rfl, rfl⟩))
    exact same ▸ List.mem_map_of_mem hs'
  have le := (List.subperm_of_subset t.nodup_names names).length_le
  simpa [toList, size] using le

end SymbolTable

namespace Fold

open HexShield

/-! ## Reasons, read off the text -/

/-- Why an expression has no number when `known` is all that is known. -/
def reasonFor (known : Resolver) (text : String) : Option SkipReason :=
  match evaluate known text with
  | .ok (some _) => none
  | .ok none => some .noValue
  | .error (.unknownSymbol x) => some (.unresolved x)
  | .error cause => some (.malformed cause)

theorem skipped?_eq (known : Resolver) (p : Pending) :
    p.skipped? known = (reasonFor known p.text).map (⟨p, ·⟩) := by
  unfold Pending.skipped? reasonFor
  match evaluate known p.text with
  | .ok (some v) => rfl
  | .ok none => rfl
  | .error e => cases e <;> rfl

theorem reasonFor_shield (known : Resolver) (text : String) :
    reasonFor known (shield text) = reasonFor known text := by
  rw [reasonFor, evaluate_shield, reasonFor]

theorem known_iff (known : Resolver) (text : String) :
    Known (evaluate known text) ↔ ∀ x, reasonFor known text ≠ some (.unresolved x) := by
  unfold reasonFor
  match evaluate known text with
  | .ok (some v) => exact iff_of_true (.ok _) nofun
  | .ok none => exact iff_of_true (.ok _) nofun
  | .error e =>
    constructor
    · rintro h x same
      cases e <;> first | exact h _ rfl _ rfl | cases same
    · rintro h _ ⟨⟩ x rfl
      exact h x rfl

section Reached

variable {t : SymbolTable} {r : SymbolTable × Report}

theorem Reached.skips_iff_reason (h : Reached (marked t) (pending t) r) (name : String)
    (reason : SkipReason) :
    r.2.Skips name reason ↔
      ∃ text, t.value? name = some (.expr text) ∧
        reasonFor r.1.number? text = some reason := by
  constructor
  · rintro ⟨s, hs, rfl, rfl⟩
    obtain ⟨p, hp, e⟩ := List.mem_filterMap.mp (h.skipped.mem_iff.mp hs)
    obtain rfl := symbol_of_skipped? e
    rw [skipped?_eq] at e
    obtain ⟨reason, found, same⟩ := Option.map_eq_some_iff.mp e
    exact ⟨_, pending_value? hp, found.trans (congrArg (some ·.reason) same)⟩
  · rintro ⟨text, value, found⟩
    obtain ⟨p, hp, rfl, rfl⟩ := exists_pending_iff.mpr value
    rw [h.skips_iff hp, skipped?_eq, found]
    rfl

/-- An expression that stays is marked. -/
theorem Reached.value?_expr (h : Reached (marked t) (pending t) r) {name text : String} :
    r.1.value? name = some (.expr text) ↔
      r.1.number? name = none ∧
        ∃ original, t.value? name = some (.expr original) ∧ shield original = text := by
  rw [h.value?_eq, marked, SymbolTable.value?_mapValues]
  cases r.1.number? name with
  | some v => simp
  | none =>
    rcases t.value? name with - | v | original
    · simp
    · simp [SymbolValue.mapExpr]
    · simp [SymbolValue.mapExpr]

theorem Reached.marked_eq (h : Reached (marked t) (pending t) r) : marked r.1 = r.1 := by
  refine SymbolTable.mapValues_eq_self fun s hs => ?_
  cases value : s.value with
  | number v => rfl
  | expr text =>
    have found := SymbolTable.value?_eq_some_iff.mpr ⟨s, hs, rfl, value⟩
    obtain ⟨-, original, -, rfl⟩ := h.value?_expr.mp found
    exact congrArg SymbolValue.expr (shield_shield original)

/-- No expression that stays has a number under the final numbers. -/
theorem Reached.stuck (h : Reached (marked t) (pending t) r) {p : Pending}
    (hp : p ∈ pending r.1) (v : Number) : evaluate r.1.number? p.text ≠ .ok (some v) := by
  intro e
  obtain ⟨none, original, value, text⟩ := h.value?_expr.mp (pending_value? hp)
  rw [← text, evaluate_shield, ← h.number?_iff_evaluate value, none] at e
  cases e

end Reached

/-! ## Folding again -/

theorem pass_stuck {t : SymbolTable} {work : List Pending}
    (stuck : ∀ p ∈ work, ∀ v, evaluate t.number? p.text ≠ .ok (some v)) :
    (pass t work).resolved = 0 := by
  fun_induction pass t work with
  | case1 => rfl
  | case2 t p rest v e r ih => exact absurd e (stuck p List.mem_cons_self v)
  | case3 t p rest e r ih => exact ih fun q hq => stuck q (List.mem_cons_of_mem p hq)
  | case4 t p rest x e r ih => exact ih fun q hq => stuck q (List.mem_cons_of_mem p hq)
  | case5 t p rest cause hk e r ih => exact ih fun q hq => stuck q (List.mem_cons_of_mem p hq)

theorem passes_idle {t : SymbolTable} {work : List Pending} (more : Nat)
    (idle : (pass t work).resolved = 0) :
    passes more t work =
      (t, {
        passes := 1
        resolved := 0
        skipped := (pass t work).failed ++
          (pass t work).waiting.map fun (p, missing) => ⟨p, .unresolved missing⟩ }) := by
  have same := (pass_idle idle).1
  cases more with
  | zero => simp only [passes, idle, same]
  | succ more => simp only [passes, idle, same, if_true]

theorem reached_of_passes_idle {t : SymbolTable} {work : List Pending} (h : Ready t work)
    (more : Nat) (idle : (pass t work).resolved = 0) : Reached t work (passes more t work) := by
  have run := passes_idle more idle
  have reached := reached_of_idle h idle
    (show (passes more t work).2.skipped = _ from congrArg (·.2.skipped) run)
  rwa [(pass_idle idle).1, show (t, (passes more t work).2) = passes more t work from
    Prod.ext (congrArg (·.1) run).symm rfl] at reached

/-- Folding a folded table changes nothing: a second run leaves every symbol as it is, expressions
included, resolves nothing in its only pass and skips the same names for the same reasons. -/
theorem fold_idempotent {maxPasses : Nat} {t : SymbolTable} (h : t.size < maxPasses) :
    let once := fold maxPasses t
    let twice := fold maxPasses once.1
    twice.1 = once.1 ∧ twice.2.resolved = 0 ∧ twice.2.passes = 1 ∧
      ∀ name reason, twice.2.Skips name reason ↔ once.2.Skips name reason := by
  intro once twice
  have first : Reached (marked t) (pending t) once := fold_reached h
  have idle : (pass (marked once.1) (pending once.1)).resolved = 0 := by
    rw [first.marked_eq]
    exact pass_stuck fun p hp => first.stuck hp
  have run := passes_idle (passBound maxPasses once.1 - 1) idle
  have same : twice.1 = once.1 := (congrArg (·.1) run).trans first.marked_eq
  have second : Reached (marked once.1) (pending once.1) twice :=
    reached_of_passes_idle (ready_pending once.1) _ idle
  refine ⟨same, congrArg (·.2.resolved) run, congrArg (·.2.passes) run, fun name reason => ?_⟩
  rw [second.skips_iff_reason, first.skips_iff_reason, same]
  constructor
  · rintro ⟨text, left, found⟩
    obtain ⟨-, original, value, rfl⟩ := first.value?_expr.mp left
    exact ⟨original, value, reasonFor_shield _ _ ▸ found⟩
  · rintro ⟨original, value, found⟩
    refine ⟨shield original, first.value?_expr.mpr ⟨?_, original, value, rfl⟩,
      (reasonFor_shield _ _).trans found⟩
    refine Option.eq_none_iff_forall_ne_some.mpr fun v number => ?_
    rw [reasonFor, (first.number?_iff_evaluate value v).mp number] at found
    cases found

/-- A symbol that needs an unknown name. -/
def stuck : Symbol := ⟨"STUCK", .expr "MISSING + 0x1F", .definition, none⟩

/-- A symbol that needs an unknown name keeps its expression, with the literal marked once. -/
theorem fold_idempotent_stuck :
    let t := SymbolTable.empty.insert stuck
    let once := fold 1024 t
    let twice := fold 1024 once.1
    t.size < 1024 ∧ once.1.value? "STUCK" = some (.expr "MISSING + 0x'1F'") ∧
      twice.1 = once.1 ∧ twice.2.resolved = 0 ∧ twice.2.passes = 1 ∧
      ∀ name reason, twice.2.Skips name reason ↔ once.2.Skips name reason := by
  intro t once twice
  have size : t.size < 1024 :=
    Nat.lt_of_le_of_lt (SymbolTable.empty.size_insert_le stuck) (by decide)
  have mark : HexShield.shield "MISSING + 0x1F" = "MISSING + 0x'1F'" := by decide +kernel
  have fails : (evaluate (fun _ => none) "MISSING + 0x1F").isOk = false := by decide +kernel
  have get (name : String) : t.get? name = if name = "STUCK" then some stuck else none :=
    SymbolTable.get?_single stuck name
  have start : (marked t).number? = fun _ => none := by
    rw [marked_number?]
    funext name
    simp only [SymbolTable.number?, SymbolTable.value?, get]
    split <;> rfl
  have idle : (pass (marked t) (pending t)).resolved = 0 := by
    refine pass_stuck fun p hp v => ?_
    have value := pending_value? hp
    simp only [SymbolTable.value?, get] at value
    split at value
    · have text : p.text = "MISSING + 0x1F" := (SymbolValue.expr.inj (Option.some.inj value)).symm
      intro e
      rw [start, text] at e
      rw [e] at fails
      cases fails
    · cases value
  have table : once.1 = marked t := congrArg (·.1) (passes_idle _ idle)
  refine ⟨size, ?_, fold_idempotent size⟩
  rw [table, marked, SymbolTable.value?_mapValues, SymbolTable.value?, get, if_pos rfl, ← mark]
  rfl

/-! ## Folding more -/

section Larger

variable {t t' : SymbolTable} {r r' : SymbolTable × Report}

/-- The numbers in a larger table hold those in a smaller one. -/
theorem Reached.le_of_larger (h : Reached (marked t) (pending t) r)
    (h' : Reached (marked t') (pending t') r')
    (larger : ∀ name v, t.value? name = some v → t'.value? name = some v) :
    Resolver.Le r.1.number? r'.1.number? := by
  refine h.least _ ?_ fun p hp v e => ?_
  · rw [marked_number?]
    refine Resolver.Le.trans (fun name v number => ?_) (marked_number? t' ▸ h'.le)
    rw [SymbolTable.number?_eq_some_iff] at number ⊢
    exact larger name _ number
  · exact (h'.number?_iff_evaluate (larger _ _ (pending_value? hp)) v).mpr e

/-- A symbol that is not skipped for an unknown name is settled: it has the same value, or is
skipped for the same reason, in a larger table. -/
theorem Reached.settled (h : Reached (marked t) (pending t) r)
    (h' : Reached (marked t') (pending t') r')
    (larger : ∀ name v, t.value? name = some v → t'.value? name = some v)
    {name : String} {v : SymbolValue} (value : t.value? name = some v)
    (settled : ∀ x, ¬ r.2.Skips name (.unresolved x)) :
    r'.1.value? name = r.1.value? name ∧
      ∀ reason, r'.2.Skips name reason ↔ r.2.Skips name reason := by
  have le := h.le_of_larger h' larger
  have value' := larger name v value
  cases v with
  | number w =>
    have number : r.1.number? name = some w :=
      h.le name w (by rw [marked_number?, SymbolTable.number?_eq_some_iff, value])
    refine ⟨?_, fun reason => ?_⟩
    · rw [h.value?_eq, h'.value?_eq, number, le name w number]
    · simp only [h.skips_iff_reason, h'.skips_iff_reason, value, value', Option.some.injEq,
        reduceCtorEq, false_and, exists_false]
  | expr text =>
    have known : Known (evaluate r.1.number? text) := (known_iff _ _).mpr fun x e =>
      settled x ((h.skips_iff_reason name _).mpr ⟨text, value, e⟩)
    have same : evaluate r'.1.number? text = evaluate r.1.number? text :=
      evaluate_of_le le rfl known
    have number : r'.1.number? name = r.1.number? name := Option.ext fun w => by
      rw [h'.number?_iff_evaluate value', h.number?_iff_evaluate value, same]
    refine ⟨?_, fun reason => ?_⟩
    · simp only [h.value?_eq, h'.value?_eq, number, marked, SymbolTable.value?_mapValues, value,
        value']
    · simp only [h.skips_iff_reason, h'.skips_iff_reason, value, value', Option.some.injEq,
        SymbolValue.expr.injEq, exists_eq_left', reasonFor, same]

end Larger

/-- Further symbols change nothing that is settled. In a table that holds all symbols of `t` with
their values, at any places, every symbol of `t` that has a number in `t` has the same one, and
every one that is skipped in `t`, but for an unknown name, is skipped for the same reason. -/
theorem fold_larger {maxPasses : Nat} {t t' : SymbolTable}
    (larger : ∀ name v, t.value? name = some v → t'.value? name = some v)
    (h : t'.size < maxPasses) :
    let small := fold maxPasses t
    let large := fold maxPasses t'
    (∀ name v, small.1.value? name = some (.number v) →
      large.1.value? name = some (.number v)) ∧
    (∀ name reason, (∀ x, reason ≠ .unresolved x) → small.2.Skips name reason →
      large.2.Skips name reason) ∧
    (∀ name v, t.value? name = some v → (∀ x, ¬ small.2.Skips name (.unresolved x)) →
      large.1.value? name = small.1.value? name ∧
        ∀ reason, large.2.Skips name reason ↔ small.2.Skips name reason) := by
  intro small large
  have reached : Reached (marked t) (pending t) small :=
    fold_reached (Nat.lt_of_le_of_lt (SymbolTable.size_le_of_larger larger) h)
  have reached' : Reached (marked t') (pending t') large := fold_reached h
  refine ⟨fun name v number => ?_, fun name reason known skips => ?_, fun name v value settled =>
    reached.settled reached' larger value settled⟩
  · rw [← SymbolTable.number?_eq_some_iff] at number ⊢
    exact reached.le_of_larger reached' larger name v number
  · obtain ⟨text, value, found⟩ := (reached.skips_iff_reason name reason).mp skips
    refine ((reached.settled reached' larger value fun x unknown => ?_).2 reason).mpr skips
    obtain ⟨text', value', found'⟩ := (reached.skips_iff_reason name _).mp unknown
    obtain rfl : text = text' := SymbolValue.expr.inj (Option.some.inj (value.symm.trans value'))
    exact known x (Option.some.inj (found.symm.trans found'))

/-- A symbol with a number for its text. -/
def one : Symbol := ⟨"ONE", .expr "1", .definition, none⟩

/-- A symbol that needs another one. -/
def two : Symbol := ⟨"TWO", .expr "ONE + 1", .definition, none⟩

/-- A symbol keeps its number when another one comes to stand before it. -/
theorem fold_larger_two :
    let t := SymbolTable.empty.insert one
    let t' := (SymbolTable.empty.insert two).insert one
    t'.size < 1024 ∧ (∀ name v, t.value? name = some v → t'.value? name = some v) ∧
      (fold 1024 t').1.value? "ONE" = some (.number (.int 1)) := by
  intro t t'
  have size : t.size < 1024 :=
    Nat.lt_of_le_of_lt (SymbolTable.size_insert_le _ _) (by decide)
  have size' : t'.size < 1024 :=
    Nat.lt_of_le_of_lt (SymbolTable.size_insert_le _ _) (Nat.succ_lt_succ
      (Nat.lt_of_le_of_lt (SymbolTable.size_insert_le _ _) (by decide)))
  have larger : ∀ name v, t.value? name = some v → t'.value? name = some v := by
    intro name v value
    simp only [t, t', SymbolTable.value?, SymbolTable.get?_insert, SymbolTable.get?_empty]
      at value ⊢
    split at value
    · next h => rwa [if_pos h]
    · cases value
  have number (known : Resolver) : evaluate known "1" = .ok (some (.int 1)) := by
    have marked : HexShield.shield "1" = "1" := by simp [HexShield.shield, HexShield.shieldFrom]
    rw [evaluate, marked]
    rfl
  have small : (fold 1024 t).1.value? "ONE" = some (.number (.int 1)) :=
    ((fold_symbol size (p := ⟨"ONE", "1", none⟩) (mem_pending.mpr
      ⟨one, SymbolTable.mem_single one, rfl, rfl, rfl⟩)).1 (.int 1)).mpr (number _)
  exact ⟨size', larger, (fold_larger larger size').1 "ONE" (.int 1) small⟩

end Fold

end ConstLookup
