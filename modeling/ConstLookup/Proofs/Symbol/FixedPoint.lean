import ConstLookup.Proofs.Symbol.Pass

/-!
  Constant folding as a least fixed point. With more passes allowed than there are symbols, the
  numbers after folding are the least ones that hold the numbers from before and are closed
  under evaluation of the other symbols, and each symbol without a number is skipped for the
  reason that its evaluation under these numbers gives (`fold_least_fixed_point`). Neither
  depends on the order of the table.
-/

namespace ConstLookup.Fold

/-! ## Folding -/

theorem mem_pending {t : SymbolTable} {p : Pending} :
    p ∈ pending t ↔ ∃ s ∈ t.toList, s.value = .expr p.text ∧ p.name = s.name ∧
      p.location = s.location := by
  unfold pending
  rw [List.mem_filterMap]
  constructor
  · rintro ⟨s, hs, h⟩
    split at h
    · next text e => cases h; exact ⟨s, hs, e, rfl, rfl⟩
    · cases h
  · rintro ⟨s, hs, e, hn, hl⟩
    refine ⟨s, hs, ?_⟩
    rw [e, ← hn, ← hl]

/-- A name has one symbol. -/
theorem eq_of_mem_pending {t : SymbolTable} {p q : Pending} (hp : p ∈ pending t)
    (hq : q ∈ pending t) (h : p.name = q.name) : p = q := by
  obtain ⟨s, hs, e, hn, hl⟩ := mem_pending.mp hp
  obtain ⟨s', hs', e', hn', hl'⟩ := mem_pending.mp hq
  have same : s = s' := Option.some.inj
    ((SymbolTable.get?_eq_some_iff.mpr ⟨hs, rfl⟩).symm.trans
      (SymbolTable.get?_eq_some_iff.mpr ⟨hs', by rw [← hn', ← h, hn]⟩))
  subst same
  obtain ⟨name, text, location⟩ := p
  obtain ⟨name', text', location'⟩ := q
  simp only at e e' hn hn' hl hl'
  rw [e] at e'
  cases e'
  rw [hn, hn', hl, hl']

theorem pending_value? {t : SymbolTable} {p : Pending} (h : p ∈ pending t) :
    t.value? p.name = some (.expr p.text) := by
  obtain ⟨s, hs, e, hn, -⟩ := mem_pending.mp h
  exact SymbolTable.value?_eq_some_iff.mpr ⟨s, hs, hn.symm, e⟩

theorem exists_pending_iff {t : SymbolTable} {name text : String} :
    (∃ p ∈ pending t, p.name = name ∧ p.text = text) ↔ t.value? name = some (.expr text) := by
  constructor
  · rintro ⟨p, hp, rfl, rfl⟩
    exact pending_value? hp
  · intro h
    obtain ⟨s, hs, rfl, e⟩ := SymbolTable.value?_eq_some_iff.mp h
    exact ⟨⟨s.name, text, s.location⟩, mem_pending.mpr ⟨s, hs, e, rfl, rfl⟩, rfl, rfl⟩

theorem pending_names_sublist (t : SymbolTable) :
    ((pending t).map Pending.name).Sublist (t.toList.map Symbol.name) := by
  unfold pending
  induction t.toList with
  | nil => exact .slnil
  | cons s l ih =>
    cases hs : s.value with
    | expr text => simpa [List.filterMap_cons, hs] using ih
    | number v => simpa [List.filterMap_cons, hs] using ih.cons s.name

/-- The table that folding starts from. -/
def marked (t : SymbolTable) : SymbolTable := t.mapValues (·.mapExpr HexShield.shield)

theorem marked_number? (t : SymbolTable) : (marked t).number? = t.number? := by
  funext name
  unfold SymbolTable.number? marked
  rw [SymbolTable.value?_mapValues]
  match t.value? name with
  | none => rfl
  | some (.expr text) => rfl
  | some (.number v) => rfl

theorem ready_pending (t : SymbolTable) : Ready (marked t) (pending t) where
  nodup := (pending_names_sublist t).nodup t.nodup_names
  awaits p hp := by
    refine ⟨HexShield.shield p.text, ?_⟩
    rw [marked, SymbolTable.value?_mapValues, pending_value? hp]
    rfl

theorem fold_reached {maxPasses : Nat} {t : SymbolTable} (h : t.size < maxPasses) :
    Reached (marked t) (pending t) (fold maxPasses t) := by
  refine passes_reached (ready_pending t) ?_
  have len : (pending t).length ≤ t.size := List.length_filterMap_le _ _
  unfold passBound
  omega

/-! ## Reasons -/

/-- The report names `name` as skipped for `reason`. -/
def Report.Skips (r : Report) (name : String) (reason : SkipReason) : Prop :=
  ∃ s ∈ r.skipped, s.symbol.name = name ∧ s.reason = reason

section Reasons

variable {K : Resolver} {p : Pending}

theorem skipped?_eq_none : p.skipped? K = none ↔ ∃ v, evaluate K p.text = .ok (some v) := by
  unfold Pending.skipped?
  split
  · next v e => simp [e]
  all_goals next e => simp [e]

theorem symbol_of_skipped? {s : Skipped} (h : p.skipped? K = some s) : s.symbol = p := by
  unfold Pending.skipped? at h
  split at h <;> cases h <;> rfl

theorem skipped?_eq_noValue :
    p.skipped? K = some ⟨p, .noValue⟩ ↔ evaluate K p.text = .ok none := by
  unfold Pending.skipped?
  split
  all_goals next e => simp [e]

theorem skipped?_eq_unresolved {x : String} :
    p.skipped? K = some ⟨p, .unresolved x⟩ ↔ evaluate K p.text = .error (.unknownSymbol x) := by
  unfold Pending.skipped?
  split
  · next e => simp [e]
  · next e => simp [e]
  · next e => simp [e]
  · next cause hk e => simpa [e] using hk x

theorem skipped?_eq_malformed {cause : EvalError} :
    p.skipped? K = some ⟨p, .malformed cause⟩ ↔
      evaluate K p.text = .error cause ∧ ∀ x, cause ≠ .unknownSymbol x := by
  unfold Pending.skipped?
  split
  · next e => simp [e]
  · next e => simp [e]
  · next x e => simpa [e] using fun h => ⟨x, h.symm⟩
  · next other hk e =>
    simp only [e, Option.some.injEq, Skipped.mk.injEq, true_and, SkipReason.malformed.injEq,
      Except.error.injEq]
    exact ⟨fun h => ⟨h, h ▸ hk⟩, And.left⟩

end Reasons

section Reached

variable {t : SymbolTable} {r : SymbolTable × Report}

/-- A name has its number, if it has one, and the value from the start otherwise. -/
theorem Reached.value?_eq {work : List Pending} (h : Reached t work r) (name : String) :
    r.1.value? name =
      match r.1.number? name with
      | some v => some (.number v)
      | none => t.value? name := by
  rcases h.value? name with same | ⟨p, hp, hn, v, hv, e⟩
  · unfold SymbolTable.number?
    rw [same]
    match t.value? name with
    | none => rfl
    | some (.expr text) => rfl
    | some (.number v) => rfl
  · unfold SymbolTable.number?
    rw [hv]
    rfl

/-- A symbol has the number that its evaluation under the final numbers gives. -/
theorem Reached.number?_iff (h : Reached (marked t) (pending t) r) {p : Pending}
    (hp : p ∈ pending t) (v : Number) :
    r.1.number? p.name = some v ↔ evaluate r.1.number? p.text = .ok (some v) := by
  have found : ∀ w, r.1.number? p.name = some w → evaluate r.1.number? p.text = .ok (some w) := by
    intro w hw
    rcases h.value? p.name with same | ⟨q, hq, hn, v', hv', e⟩
    · have := ((ready_pending t).awaits p hp).number?_eq
      rw [SymbolTable.number?, ← same] at this
      rw [SymbolTable.number?, this] at hw
      cases hw
    · obtain rfl := eq_of_mem_pending hq hp hn
      rw [SymbolTable.number?, hv'] at hw
      cases hw
      exact e
  refine ⟨found v, fun e => ?_⟩
  rcases h.covers p hp with some | ⟨s, hs, rfl⟩
  · obtain ⟨w, hw⟩ := Option.isSome_iff_exists.mp some
    rw [found w hw] at e
    cases e
    exact hw
  · obtain ⟨q, -, hq⟩ := List.mem_filterMap.mp (h.skipped.mem_iff.mp hs)
    rw [symbol_of_skipped? hq] at e
    rw [skipped?_eq_none.mpr ⟨v, e⟩] at hq
    cases hq

theorem Reached.number?_iff_evaluate (h : Reached (marked t) (pending t) r) {name text : String}
    (value : t.value? name = some (.expr text)) (v : Number) :
    r.1.number? name = some v ↔ evaluate r.1.number? text = .ok (some v) := by
  obtain ⟨p, hp, rfl, rfl⟩ := exists_pending_iff.mpr value
  exact h.number?_iff hp v

theorem Reached.closed (h : Reached (marked t) (pending t) r) :
    Closed (pending t) r.1.number? := fun _ hp v => (h.number?_iff hp v).mpr

theorem Reached.skips_iff (h : Reached (marked t) (pending t) r) {p : Pending}
    (hp : p ∈ pending t) (reason : SkipReason) :
    r.2.Skips p.name reason ↔ p.skipped? r.1.number? = some ⟨p, reason⟩ := by
  constructor
  · rintro ⟨s, hs, hn, rfl⟩
    obtain ⟨q, hq, e⟩ := List.mem_filterMap.mp (h.skipped.mem_iff.mp hs)
    obtain rfl := symbol_of_skipped? e
    obtain rfl := eq_of_mem_pending hq hp hn
    exact e
  · intro e
    exact ⟨_, h.skipped.mem_iff.mpr (List.mem_filterMap.mpr ⟨p, hp, e⟩), rfl, rfl⟩

end Reached

/-! ## The order of the table -/

section Order

variable {t t' : SymbolTable}

theorem value?_perm (h : t'.toList.Perm t.toList) (name : String) :
    t'.value? name = t.value? name := by
  ext v
  rw [SymbolTable.value?_eq_some_iff, SymbolTable.value?_eq_some_iff]
  simp only [h.mem_iff]

theorem number?_perm (h : t'.toList.Perm t.toList) : t'.number? = t.number? := by
  funext name
  rw [SymbolTable.number?, value?_perm h, SymbolTable.number?]

theorem pending_perm (h : t'.toList.Perm t.toList) : (pending t').Perm (pending t) :=
  h.filterMap _

theorem Reached.le_of_perm {r r' : SymbolTable × Report} (h : t'.toList.Perm t.toList)
    (hr : Reached (marked t) (pending t) r) (hr' : Reached (marked t') (pending t') r') :
    Resolver.Le r'.1.number? r.1.number? := by
  refine hr'.least _ ?_ fun p hp => hr.closed p ((pending_perm h).mem_iff.mp hp)
  have := hr.le
  rwa [marked_number?, ← number?_perm h, ← marked_number?] at this

theorem fold_perm {maxPasses : Nat} (h : t.size < maxPasses) (hp : t'.toList.Perm t.toList) :
    (∀ name, (fold maxPasses t').1.value? name = (fold maxPasses t).1.value? name) ∧
      (fold maxPasses t').2.skipped.Perm (fold maxPasses t).2.skipped := by
  have size : t'.size < maxPasses := by
    have := hp.length_eq
    simp only [SymbolTable.toList, Array.length_toList] at this
    unfold SymbolTable.size at h ⊢
    omega
  have r := fold_reached h
  have r' := fold_reached size
  have same : (fold maxPasses t').1.number? = (fold maxPasses t).1.number? :=
    (r.le_of_perm hp r').antisymm (r'.le_of_perm hp.symm r)
  refine ⟨fun name => ?_, ?_⟩
  · rw [r.value?_eq, r'.value?_eq, same, marked, marked, SymbolTable.value?_mapValues,
      SymbolTable.value?_mapValues, value?_perm hp]
  · refine r'.skipped.trans (List.Perm.trans ?_ r.skipped.symm)
    rw [same]
    exact (pending_perm hp).filterMap _

end Order

theorem fold_symbol {maxPasses : Nat} {t : SymbolTable} (h : t.size < maxPasses) {p : Pending}
    (hp : p ∈ pending t) :
    let folded := (fold maxPasses t).1
    let report := (fold maxPasses t).2
    (∀ v, folded.value? p.name = some (.number v) ↔
      evaluate folded.number? p.text = .ok (some v)) ∧
    (report.Skips p.name .noValue ↔ evaluate folded.number? p.text = .ok none) ∧
    (∀ x, report.Skips p.name (.unresolved x) ↔
      evaluate folded.number? p.text = .error (.unknownSymbol x)) ∧
    (∀ e, report.Skips p.name (.malformed e) ↔
      evaluate folded.number? p.text = .error e ∧ ∀ x, e ≠ .unknownSymbol x) := by
  have r := fold_reached h
  refine ⟨fun v => ?_, ?_, fun x => ?_, fun e => ?_⟩
  · rw [← r.number?_iff hp v, SymbolTable.number?_eq_some_iff]
  · exact (r.skips_iff hp _).trans skipped?_eq_noValue
  · exact (r.skips_iff hp _).trans skipped?_eq_unresolved
  · exact (r.skips_iff hp _).trans skipped?_eq_malformed

/-- With more passes allowed than there are symbols, folding reaches a least fixed point that
does not depend on the order of the table.

A symbol gets the number, or is skipped for the reason, that its evaluation under the final
numbers gives. These numbers are the least ones that hold the numbers from before and are closed
under evaluation. A table with the same symbols in another order gets the same values and the
same list of skipped symbols, up to its order. -/
theorem fold_least_fixed_point {maxPasses : Nat} {t : SymbolTable} (h : t.size < maxPasses) :
    let folded := (fold maxPasses t).1
    let report := (fold maxPasses t).2
    (∀ s ∈ t.toList, ∀ text, s.value = .expr text →
      (∀ v, folded.value? s.name = some (.number v) ↔
        evaluate folded.number? text = .ok (some v)) ∧
      (report.Skips s.name .noValue ↔ evaluate folded.number? text = .ok none) ∧
      (∀ x, report.Skips s.name (.unresolved x) ↔
        evaluate folded.number? text = .error (.unknownSymbol x)) ∧
      (∀ e, report.Skips s.name (.malformed e) ↔
        evaluate folded.number? text = .error e ∧ ∀ x, e ≠ .unknownSymbol x)) ∧
    (Resolver.Le t.number? folded.number? ∧ Closed (pending t) folded.number? ∧
      ∀ K, Resolver.Le t.number? K → Closed (pending t) K → Resolver.Le folded.number? K) ∧
    (∀ t' : SymbolTable, t'.toList.Perm t.toList →
      (∀ name, (fold maxPasses t').1.value? name = folded.value? name) ∧
        (fold maxPasses t').2.skipped.Perm report.skipped) := by
  have r := fold_reached h
  refine ⟨fun s hs text e => ?_, ⟨?_, r.closed, fun K le closed => ?_⟩, fun t' hp => ?_⟩
  · exact fold_symbol (p := ⟨s.name, text, s.location⟩) h (mem_pending.mpr ⟨s, hs, e, rfl, rfl⟩)
  · exact marked_number? t ▸ r.le
  · exact r.least K (marked_number? t ▸ le) closed
  · exact fold_perm h hp

/-- A symbol that needs its own value. -/
def loop : Symbol := ⟨"LOOP", .expr "LOOP", .definition, none⟩

/-- A symbol that needs its own value stays without one. -/
theorem fold_loop :
    let t := SymbolTable.empty.insert loop
    t.size < 1024 ∧ (fold 1024 t).1.number? "LOOP" = none ∧
      (fold 1024 t).2.Skips "LOOP" (.unresolved "LOOP") := by
  intro t
  have size : t.size < 1024 :=
    Nat.lt_of_le_of_lt (SymbolTable.empty.size_insert_le loop) (by decide)
  have get (name : String) : t.get? name = if name = "LOOP" then some loop else none :=
    SymbolTable.get?_single loop name
  have start : Resolver.Le t.number? fun _ => none := by
    intro name v h
    simp only [SymbolTable.number?, SymbolTable.value?, get] at h
    split at h <;> cases h
  have unknown : evaluate (fun _ => none) "LOOP" = .error (.unknownSymbol "LOOP") := by
    have marked : HexShield.shield "LOOP" = "LOOP" := by
      simp [HexShield.shield, HexShield.shieldFrom]
    rw [evaluate, marked]
    rfl
  obtain ⟨symbols, ⟨-, -, least⟩, -⟩ := fold_least_fixed_point size
  have nothing : (fold 1024 t).1.number? = fun _ => none := by
    refine Resolver.Le.antisymm (least _ start fun p hp v hv => ?_) fun name v none => by cases none
    obtain ⟨s, hs, e, -⟩ := mem_pending.mp hp
    have hg := SymbolTable.get?_eq_some_iff.mpr ⟨hs, rfl⟩
    rw [get] at hg
    split at hg
    · cases hg
      have text : p.text = "LOOP" := (SymbolValue.expr.inj e).symm
      rw [text, unknown] at hv
      cases hv
    · cases hg
  obtain ⟨-, -, unresolved, -⟩ := symbols loop (SymbolTable.mem_single loop) "LOOP" rfl
  refine ⟨size, by rw [nothing], (unresolved "LOOP").mpr ?_⟩
  rw [nothing]
  exact unknown

end ConstLookup.Fold
