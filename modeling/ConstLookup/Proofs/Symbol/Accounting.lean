import ConstLookup.Proofs.Symbol.FixedPoint
import Mathlib.Algebra.GroupWithZero.Nat

/-!
  What a folding run accounts for, whatever the bound on its passes (`fold_accounting`). A pass
  splits its symbols into those with a number, those that failed and those that wait
  (`pass_left`), and the next pass sees the waiting ones only; so in the end the report names each
  symbol without a number once (`passes_left`). Every pass but the last resolves a symbol
  (`passes_ended`). Of the symbols in the table only values change, and only those that were
  expressions.
-/

namespace ConstLookup

/-- What a symbol is apart from its value. -/
def Symbol.declared (s : Symbol) : String × SymbolKind × Option Location :=
  (s.name, s.kind, s.location)

namespace SymbolTable

/-- What the new symbol shares with the old one stays as it is in the table. -/
theorem map_setAt {α : Type} (f : Symbol → α) {t : SymbolTable} {i : Nat} {s : Symbol}
    (same : t.entries[i]?.map Symbol.name = some s.name)
    (shared : t.entries[i]?.map f = some (f s)) :
    (t.setAt i s same).toList.map f = t.toList.map f := by
  refine List.ext_getElem (by simp [toList, setAt]) fun j hj hj' => ?_
  have hj : j < t.entries.size := by simpa [toList] using hj'
  simp only [toList, setAt, List.getElem_map, Array.getElem_toList]
  rw [Array.getElem_setIfInBounds hj]
  split
  · next h =>
    subst h
    rw [Array.getElem?_eq_getElem hj, Option.map_some, Option.some.injEq] at shared
    exact shared.symm
  · rfl

/-- Another value changes nothing else of a table. -/
theorem declared_setValue (t : SymbolTable) (name : String) (v : SymbolValue) :
    (t.setValue name v).toList.map Symbol.declared = t.toList.map Symbol.declared := by
  unfold setValue
  split
  · next old found =>
    have own : old.name = name := (get?_eq_some_iff.mp found).2
    unfold insert
    split
    · next i hi =>
      have here : t.entries[i]? = some old := by rwa [get?, ← own, hi] at found
      exact map_setAt Symbol.declared _ (by rw [here]; rfl)
    · next hi => simp [get?, ← own, hi] at found
  · rfl

theorem declared_mapValues (t : SymbolTable) (f : SymbolValue → SymbolValue) :
    (t.mapValues f).toList.map Symbol.declared = t.toList.map Symbol.declared := by
  simp [toList, mapValues, Symbol.declared, Function.comp_def]

end SymbolTable

namespace Fold

variable {t : SymbolTable} {work : List Pending}

/-! ## Which symbols have no number -/

/-- The symbols of `work` that have no number in `t`. -/
def left (t : SymbolTable) (work : List Pending) : List Pending :=
  work.filter fun p => (t.number? p.name).isNone

theorem mem_left {p : Pending} : p ∈ left t work ↔ p ∈ work ∧ t.number? p.name = none := by
  rw [left, List.mem_filter, Option.isNone_iff_eq_none]

theorem left_cons_of_none {p : Pending} (h : t.number? p.name = none) (rest : List Pending) :
    left t (p :: rest) = p :: left t rest :=
  List.filter_cons_of_pos (by rw [h]; rfl)

/-- A pass gives no number to another name. -/
theorem pass_number?_of_notMem (h : Ready t work) {name : String}
    (other : name ∉ work.map Pending.name) :
    (pass t work).table.number? name = t.number? name := by
  rcases pass_value? h name with same | ⟨p, hp, rfl, -⟩
  · rw [SymbolTable.number?, same, SymbolTable.number?]
  · exact absurd (List.mem_map_of_mem hp) other

/-- After a pass the symbols without a number are those that failed and those that wait. -/
theorem pass_left (h : Ready t work) :
    ((pass t work).failed.map Skipped.symbol ++ (pass t work).waiting.map (·.1)).Perm
      (left (pass t work).table work) := by
  -- a symbol that is not resolved when it is tried is not resolved later in the pass
  have unresolved {t : SymbolTable} {p : Pending} {rest : List Pending}
      (h : Ready t (p :: rest)) : (pass t rest).table.number? p.name = none := by
    rw [pass_number?_of_notMem h.tail (List.nodup_cons.mp h.nodup).1, h.head.number?_eq]
  fun_induction pass t work with
  | case1 => exact .refl _
  | case2 t p rest v e r ih =>
    have resolved : r.table.number? p.name = some v :=
      pass_le (h.resolved v) p.name v (by rw [h.head.number?_setNumber, if_pos rfl])
    rw [left, List.filter_cons_of_neg (by simp [resolved])]
    exact ih (h.resolved v)
  | case3 t p rest e r ih =>
    rw [left_cons_of_none (unresolved h)]
    exact (ih h.tail).cons p
  | case4 t p rest x e r ih =>
    rw [left_cons_of_none (unresolved h)]
    exact List.perm_middle.trans ((ih h.tail).cons p)
  | case5 t p rest cause hk e r ih =>
    rw [left_cons_of_none (unresolved h)]
    exact (ih h.tail).cons p

/-- The number of a name that further passes do not try. -/
theorem passes_number?_of_notMem {more : Nat} (h : Ready t work) {name : String}
    (other : name ∉ work.map Pending.name) :
    (passes more t work).1.number? name = t.number? name := by
  refine passes_invariant (fun K => K name = t.number? name) h (fun p hp K v same _ _ => ?_) rfl
  rw [Function.update_of_ne, same]
  rintro rfl
  exact other (List.mem_map_of_mem hp)

theorem passes_le (more : Nat) (h : Ready t work) :
    Resolver.Le t.number? (passes more t work).1.number? := by
  refine passes_invariant (Resolver.Le t.number?) h (fun p _ K v le none _ => ?_) (.refl _)
  intro name w hw
  rw [Function.update_apply]
  split
  · next same =>
    have known := le name w hw
    rw [same, none] at known
    cases known
  · exact le name w hw

/-- Later numbers leave fewer symbols. -/
theorem left_left {t' : SymbolTable} (le : Resolver.Le t.number? t'.number?)
    (work : List Pending) : left t' (left t work) = left t' work := by
  rw [left, left, List.filter_filter, left]
  refine List.filter_congr fun p _ => ?_
  cases none : t.number? p.name with
  | none => simp
  | some v => simp [le p.name v none]

/-- The symbols that failed get no number from passes over those that wait. -/
theorem failed_left (more : Nat) (h : Ready t work) :
    left (passes more (pass t work).table ((pass t work).waiting.map (·.1))).1
        ((pass t work).failed.map Skipped.symbol) =
      (pass t work).failed.map Skipped.symbol := by
  have split := pass_left h
  have names : (((pass t work).failed.map Skipped.symbol ++
      (pass t work).waiting.map (·.1)).map Pending.name).Nodup :=
    (split.map _).nodup_iff.mpr ((List.filter_sublist.map _).nodup h.nodup)
  rw [List.map_append, List.nodup_append] at names
  refine List.filter_eq_self.mpr fun p hp => ?_
  have failed : p ∈ left (pass t work).table work :=
    split.mem_iff.mp (List.mem_append_left _ hp)
  rw [passes_number?_of_notMem h.waiting fun waits =>
    names.2.2 _ (List.mem_map_of_mem hp) _ waits rfl, (mem_left.mp failed).2]
  rfl

/-- The report of a last pass. -/
theorem last_left (h : Ready t work) :
    (((pass t work).failed ++ (pass t work).waiting.map fun (p, missing) =>
      (⟨p, .unresolved missing⟩ : Skipped)).map Skipped.symbol).Perm
        (left (pass t work).table work) := by
  rw [List.map_append, List.map_map]
  exact pass_left h

/-- The report names each symbol that has no number at the end, and no other one. -/
theorem passes_left (more : Nat) (h : Ready t work) :
    ((passes more t work).2.skipped.map Skipped.symbol).Perm
      (left (passes more t work).1 work) := by
  induction more generalizing t work with
  | zero => exact last_left h
  | succ more ih =>
    rw [passes]
    dsimp only
    split
    · exact last_left h
    · have waiting := ih h.waiting
      have failed := failed_left more h
      have later := left_left (passes_le more h.waiting) work
      generalize passes more (pass t work).table ((pass t work).waiting.map (·.1)) = r
        at waiting failed later
      dsimp only
      have apart : left r.1 ((pass t work).failed.map Skipped.symbol ++
          (pass t work).waiting.map (·.1)) =
            (pass t work).failed.map Skipped.symbol ++
              left r.1 ((pass t work).waiting.map (·.1)) := by
        rw [left, List.filter_append, ← left, failed, left]
      rw [List.map_append, ← later]
      refine (waiting.append_left _).trans ?_
      rw [← apart]
      exact (pass_left h).filter _

/-! ## Which passes are made -/

/-- The passes made over the symbols `work` of `t`: the first one, and up to `more` further ones as
long as the last one resolved something. -/
def passesMade : Nat → SymbolTable → List Pending → List Pass
  | 0, t, work => [pass t work]
  | more + 1, t, work =>
    if (pass t work).resolved = 0 then [pass t work]
    else pass t work ::
      passesMade more (pass t work).table ((pass t work).waiting.map (·.1))

/-- The report counts the passes made and what they resolved. -/
theorem passes_counts (more : Nat) (t : SymbolTable) (work : List Pending) :
    (passes more t work).2.passes = (passesMade more t work).length ∧
    (passes more t work).2.resolved = ((passesMade more t work).map Pass.resolved).sum := by
  induction more generalizing t work with
  | zero => exact ⟨rfl, rfl⟩
  | succ more ih =>
    rw [passes, passesMade]
    dsimp only
    split
    · exact ⟨rfl, rfl⟩
    · obtain ⟨count, sum⟩ := ih (pass t work).table ((pass t work).waiting.map (·.1))
      exact ⟨congrArg (· + 1) count, congrArg ((pass t work).resolved + ·) sum⟩

/-- Every symbol is resolved or skipped. -/
theorem passes_count (more : Nat) (t : SymbolTable) (work : List Pending) :
    (passes more t work).2.resolved + (passes more t work).2.skipped.length = work.length := by
  induction more generalizing t work with
  | zero =>
    have first := pass_count t work
    simp only [passes, List.length_append, List.length_map]
    omega
  | succ more ih =>
    have first := pass_count t work
    rw [passes]
    dsimp only
    split
    · simp only [List.length_append, List.length_map]
      omega
    · have rest := ih (pass t work).table ((pass t work).waiting.map (·.1))
      simp only [List.length_append, List.length_map] at rest ⊢
      omega

/-- The last pass started from the final table, resolved nothing and left the table. -/
def EndsIdle (made : List Pass) (final : SymbolTable) : Prop :=
  ∃ work, made.getLast? = some (pass final work) ∧ (pass final work).resolved = 0 ∧
    (pass final work).table = final

theorem endsIdle_of_idle (idle : (pass t work).resolved = 0) :
    EndsIdle [pass t work] (pass t work).table := by
  have same := (pass_idle idle).1
  exact ⟨work, by rw [same]; rfl, by rw [same, idle], by rw [same, same]⟩

/-- Either the last pass resolved nothing, or all passes that may be made were made and each
resolved a symbol. -/
theorem passes_ended (more : Nat) (t : SymbolTable) (work : List Pending) :
    1 ≤ (passes more t work).2.passes ∧ (passes more t work).2.passes ≤ more + 1 ∧
    ((EndsIdle (passesMade more t work) (passes more t work).1 ∧
        (passes more t work).2.passes ≤ (passes more t work).2.resolved + 1) ∨
      ((passes more t work).2.passes = more + 1 ∧
        (passes more t work).2.passes ≤ (passes more t work).2.resolved)) := by
  induction more generalizing t work with
  | zero =>
    refine ⟨Nat.le_refl 1, Nat.le_refl 1, ?_⟩
    by_cases idle : (pass t work).resolved = 0
    · exact .inl ⟨endsIdle_of_idle idle, Nat.le_add_left 1 _⟩
    · exact .inr ⟨rfl, Nat.pos_of_ne_zero idle⟩
  | succ more ih =>
    rw [passes, passesMade]
    dsimp only
    split
    · next idle =>
      exact ⟨Nat.le_refl 1, Nat.le_add_left 1 _, .inl ⟨endsIdle_of_idle idle, Nat.le_add_left 1 _⟩⟩
    · next busy =>
      obtain ⟨some, bound, ended⟩ := ih (pass t work).table ((pass t work).waiting.map (·.1))
      refine ⟨Nat.le_add_left 1 _, Nat.succ_le_succ bound, ?_⟩
      rcases ended with ⟨⟨waiting, last, idle, same⟩, le⟩ | ⟨all, le⟩
      · refine .inl ⟨⟨waiting, ?_, idle, same⟩, by dsimp only; omega⟩
        rw [List.getLast?_cons, last]
        rfl
      · exact .inr ⟨by dsimp only; omega, by dsimp only; omega⟩

/-! ## What stays of the table -/

theorem pass_declared (t : SymbolTable) (work : List Pending) :
    (pass t work).table.toList.map Symbol.declared = t.toList.map Symbol.declared := by
  fun_induction pass t work with
  | case1 => rfl
  | case2 t p rest v e r ih => exact ih.trans (t.declared_setValue p.name _)
  | case3 t p rest e r ih => exact ih
  | case4 t p rest x e r ih => exact ih
  | case5 t p rest cause hk e r ih => exact ih

theorem passes_declared (more : Nat) (t : SymbolTable) (work : List Pending) :
    (passes more t work).1.toList.map Symbol.declared = t.toList.map Symbol.declared := by
  induction more generalizing t work with
  | zero => exact pass_declared t work
  | succ more ih =>
    rw [passes]
    dsimp only
    split
    · exact pass_declared t work
    · exact (ih _ _).trans (pass_declared t work)

/-! ## Folding -/

/-- The passes of a folding run. -/
def foldPasses (maxPasses : Nat) (t : SymbolTable) : List Pass :=
  passesMade (passBound maxPasses t - 1) (marked t) (pending t)

theorem length_pending (t : SymbolTable) :
    (pending t).length = t.toList.countP fun s => !s.value.isResolved := by
  unfold pending
  induction t.toList with
  | nil => rfl
  | cons s l ih =>
    rw [List.countP_cons, ← ih, List.filterMap_cons]
    cases hs : s.value <;> simp [SymbolValue.isResolved, SymbolValue.number?]

section Run

variable {maxPasses : Nat}

theorem fold_declared :
    (fold maxPasses t).1.toList.map Symbol.declared = t.toList.map Symbol.declared :=
  (passes_declared _ _ _).trans (t.declared_mapValues _)

/-- A symbol with a number stays as it is. -/
theorem mem_fold_of_number {s : Symbol} (hs : s ∈ t.toList) {v : Number}
    (value : s.value = .number v) : s ∈ (fold maxPasses t).1.toList := by
  have number : t.number? s.name = some v :=
    SymbolTable.number?_eq_some_iff.mpr (SymbolTable.value?_eq_some_iff.mpr ⟨s, hs, rfl, value⟩)
  have still : (fold maxPasses t).1.number? s.name = some v :=
    passes_le _ (ready_pending t) s.name v (by rw [marked_number?, number])
  obtain ⟨s', hs', name, value'⟩ :=
    SymbolTable.value?_eq_some_iff.mp (SymbolTable.number?_eq_some_iff.mp still)
  have declared : s.declared ∈ (fold maxPasses t).1.toList.map Symbol.declared := by
    rw [fold_declared]
    exact List.mem_map_of_mem hs
  obtain ⟨s'', hs'', same⟩ := List.mem_map.mp declared
  obtain ⟨name', kind, location⟩ : s''.name = s.name ∧ s''.kind = s.kind ∧
      s''.location = s.location := by simpa [Symbol.declared] using same
  -- a name has one symbol, so the value and the rest belong together
  have found := SymbolTable.get?_eq_some_iff.mpr ⟨hs', name⟩
  have found' := SymbolTable.get?_eq_some_iff.mpr ⟨hs'', name'⟩
  obtain rfl : s' = s'' := Option.some.inj (found.symm.trans found')
  obtain ⟨n, val, k, l⟩ := s
  obtain ⟨n', val', k', l'⟩ := s'
  simp only at name kind location value value'
  rw [← name, value, ← value', ← kind, ← location]
  exact hs'

/-- Of records with distinct names one has a given name. -/
theorem filter_name_eq {records : List Skipped}
    (distinct : (records.map (·.symbol.name)).Nodup) {k : Skipped} (hk : k ∈ records) :
    records.filter (·.symbol.name = k.symbol.name) = [k] := by
  induction records with
  | nil => cases hk
  | cons first records ih =>
    obtain ⟨other, distinct⟩ := List.nodup_cons.mp distinct
    rcases List.mem_cons.mp hk with rfl | hk
    · rw [List.filter_cons_of_pos (by simp), List.filter_eq_nil_iff.mpr fun k' hk' same => ?_]
      exact other (List.mem_map.mpr ⟨k', hk', of_decide_eq_true same⟩)
    · rw [List.filter_cons_of_neg, ih distinct hk]
      exact fun same => other (List.mem_map.mpr ⟨k, hk, (of_decide_eq_true same).symm⟩)

/-- An expression has a number in the end or one record in the report. -/
theorem records_eq {p : Pending} (hp : p ∈ pending t) :
    ((∃ v, (fold maxPasses t).1.value? p.name = some (.number v)) ∧
      (fold maxPasses t).2.skipped.filter (·.symbol.name = p.name) = []) ∨
    ((fold maxPasses t).1.number? p.name = none ∧ ∃ reason,
      (fold maxPasses t).2.skipped.filter (·.symbol.name = p.name) = [⟨p, reason⟩]) := by
  have named := passes_left (passBound maxPasses t - 1) (ready_pending t)
  change ((fold maxPasses t).2.skipped.map Skipped.symbol).Perm
    (left (fold maxPasses t).1 (pending t)) at named
  cases number : (fold maxPasses t).1.number? p.name with
  | some v =>
    refine .inl ⟨⟨v, SymbolTable.number?_eq_some_iff.mp number⟩, ?_⟩
    refine List.filter_eq_nil_iff.mpr fun k hk same => ?_
    have open_ := (mem_left.mp (named.mem_iff.mp (List.mem_map_of_mem hk))).2
    rw [of_decide_eq_true same, number] at open_
    cases open_
  | none =>
    refine .inr ⟨rfl, ?_⟩
    obtain ⟨k, hk, rfl⟩ := List.mem_map.mp (named.mem_iff.mpr (mem_left.mpr ⟨hp, number⟩))
    refine ⟨k.reason, filter_name_eq ?_ hk⟩
    have distinct : ((left (fold maxPasses t).1 (pending t)).map Pending.name).Nodup :=
      (List.filter_sublist.map Pending.name).nodup (ready_pending t).nodup
    rwa [← (named.map Pending.name).nodup_iff, List.map_map] at distinct

/-- The number of passes, and how the last one ends. -/
theorem fold_passes (maxPasses : Nat) (t : SymbolTable) :
    1 ≤ (fold maxPasses t).2.passes ∧ (fold maxPasses t).2.passes ≤ passBound maxPasses t ∧
    (fold maxPasses t).2.passes ≤ (fold maxPasses t).2.resolved + 1 ∧
    ((fold maxPasses t).2.passes < maxPasses →
      EndsIdle (foldPasses maxPasses t) (fold maxPasses t).1) := by
  have positive : 1 ≤ passBound maxPasses t := Nat.le_max_left ..
  have few : (fold maxPasses t).2.resolved ≤ t.size := by
    have all := passes_count (passBound maxPasses t - 1) (marked t) (pending t)
    have len : (pending t).length ≤ t.size := List.length_filterMap_le _ _
    change (fold maxPasses t).2.resolved + (fold maxPasses t).2.skipped.length = _ at all
    omega
  obtain ⟨some, bound, ended⟩ := passes_ended (passBound maxPasses t - 1) (marked t) (pending t)
  change 1 ≤ (fold maxPasses t).2.passes at some
  change (fold maxPasses t).2.passes ≤ passBound maxPasses t - 1 + 1 at bound
  refine ⟨some, by omega, ?_, fun early => ?_⟩
  · rcases ended with ⟨-, le⟩ | ⟨-, le⟩
    · exact le
    · exact Nat.le_succ_of_le le
  · refine ended.elim And.left fun ⟨all, le⟩ => ?_
    -- a run of productive passes is not longer than the table, so it ends at `maxPasses`
    change (fold maxPasses t).2.passes = _ at all
    change (fold maxPasses t).2.passes ≤ (fold maxPasses t).2.resolved at le
    unfold passBound at all
    omega

end Run

/-- A folding run accounts for every expression, with any bound on its passes.

Each symbol that was an expression has a number in the end and no record in the report, or no
number and exactly one record, with the text and location that it had; so the numbers of resolved
and of skipped symbols make up that of the expressions. Names, kinds, locations and the order of the
table stay, and so do symbols with a number. At least one pass is made, at most as many as
are allowed, and at most one more than there are resolved symbols; the last pass of a run that ends
before its bound resolved nothing. -/
theorem fold_accounting (maxPasses : Nat) (t : SymbolTable) :
    let folded := (fold maxPasses t).1
    let report := (fold maxPasses t).2
    (∀ s ∈ t.toList, ∀ text, s.value = .expr text →
      let records := report.skipped.filter (·.symbol.name = s.name)
      ((∃ v, folded.value? s.name = some (.number v)) ∧ records = []) ∨
      (folded.number? s.name = none ∧
        ∃ reason, records = [⟨⟨s.name, text, s.location⟩, reason⟩])) ∧
    report.resolved + report.skipped.length = t.toList.countP (fun s => !s.value.isResolved) ∧
    folded.toList.map Symbol.declared = t.toList.map Symbol.declared ∧
    (∀ s ∈ t.toList, ∀ v, s.value = .number v → s ∈ folded.toList) ∧
    1 ≤ report.passes ∧ report.passes ≤ max 1 (min maxPasses (t.size + 1)) ∧
    report.passes ≤ report.resolved + 1 ∧
    report.passes = (foldPasses maxPasses t).length ∧
    (report.passes < maxPasses → EndsIdle (foldPasses maxPasses t) folded) := by
  obtain ⟨some, bound, le, idle⟩ := fold_passes maxPasses t
  refine ⟨fun s hs text e => ?_, ?_, fold_declared, fun s hs v => mem_fold_of_number hs, some,
    bound, le, (passes_counts _ _ _).1, idle⟩
  · exact records_eq (p := ⟨s.name, text, s.location⟩) (mem_pending.mpr ⟨s, hs, e, rfl, rfl⟩)
  · rw [← length_pending]
    exact passes_count _ _ _

end Fold

end ConstLookup
