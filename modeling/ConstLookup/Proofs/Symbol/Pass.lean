import ConstLookup.Proofs.Expr.Monotone
import ConstLookup.Symbol.Fold
import Mathlib.Data.List.Basic

/-!
  What the passes of constant folding reach. A pass keeps what it found, since evaluation is
  monotone in the known names (`pass_le`); so what it says about a symbol still holds under the
  numbers at the end (`pass_value?`, `pass_skipped`). It finds no number that a closed resolver
  lacks (`pass_least`). As many passes as there are symbols end with one that resolves nothing
  (`passes_reached`), and then the unknown names are unknown for good.
-/

namespace ConstLookup

namespace SymbolTable

/-- The table of one symbol has nothing else. -/
theorem get?_single (s : Symbol) (name : String) :
    (empty.insert s).get? name = if name = s.name then some s else none := by
  rw [get?_insert, get?_empty]

theorem mem_single (s : Symbol) : s ∈ (empty.insert s).toList :=
  (get?_eq_some_iff.mp ((get?_single s s.name).trans (if_pos rfl))).1

theorem size_foldl_insert_le (symbols : List Symbol) (t : SymbolTable) :
    (symbols.foldl insert t).size ≤ t.size + symbols.length := by
  induction symbols generalizing t with
  | nil => exact Nat.le_refl _
  | cons s symbols ih =>
    have first := t.size_insert_le s
    have rest := ih (t.insert s)
    rw [List.foldl_cons, List.length_cons]
    omega

/-- A table of symbols that were inserted in turn has nothing else. -/
theorem value?_foldl_insert {symbols : List Symbol} {t : SymbolTable} {name : String}
    {v : SymbolValue} (h : (symbols.foldl insert t).value? name = some v) :
    t.value? name = some v ∨ ∃ s ∈ symbols, s.name = name ∧ s.value = v := by
  induction symbols generalizing t with
  | nil => exact .inl h
  | cons s symbols ih =>
    rcases ih h with first | ⟨s', hs', found⟩
    · rw [value?, get?_insert] at first
      split at first
      · next same => exact .inr ⟨s, List.mem_cons_self, same.symm, Option.some.inj first⟩
      · exact .inl first
    · exact .inr ⟨s', List.mem_cons_of_mem s hs', found⟩

/-- Symbols with other names leave the symbol of a name. -/
theorem value?_foldl_insert_of_notMem {symbols : List Symbol} {name : String}
    (h : name ∉ symbols.map Symbol.name) (t : SymbolTable) :
    (symbols.foldl insert t).value? name = t.value? name := by
  induction symbols generalizing t with
  | nil => rfl
  | cons s symbols ih =>
    rw [List.map_cons, List.mem_cons, not_or] at h
    rw [List.foldl_cons, ih h.2, value?, get?_insert, if_neg h.1, value?]

/-- Each of several symbols with distinct names is found. -/
theorem value?_foldl_insert_of_nodup {symbols : List Symbol}
    (h : (symbols.map Symbol.name).Nodup) {s : Symbol} (hs : s ∈ symbols) (t : SymbolTable) :
    (symbols.foldl insert t).value? s.name = some s.value := by
  induction symbols generalizing t with
  | nil => cases hs
  | cons first symbols ih =>
    obtain ⟨other, h⟩ := List.nodup_cons.mp h
    rcases List.mem_cons.mp hs with rfl | hs
    · rw [List.foldl_cons, value?_foldl_insert_of_notMem other, value?, get?_insert, if_pos rfl]
      rfl
    · exact ih h hs (t.insert first)

theorem number?_eq_some_iff {t : SymbolTable} {name : String} {v : Number} :
    t.number? name = some v ↔ t.value? name = some (.number v) := by
  unfold number?
  cases t.value? name with
  | none => simp
  | some value => cases value <;> simp [SymbolValue.number?]

/-- The name is in the table and has no number yet. -/
def Awaits (t : SymbolTable) (name : String) : Prop := ∃ text, t.value? name = some (.expr text)

theorem Awaits.number?_eq {t : SymbolTable} {name : String} (h : t.Awaits name) :
    t.number? name = none := by
  obtain ⟨text, h⟩ := h
  rw [number?, h]
  rfl

theorem Awaits.value?_setNumber {t : SymbolTable} {name : String} (h : t.Awaits name)
    (v : Number) (other : String) :
    (t.setValue name (.number v)).value? other =
      if other = name then some (.number v) else t.value? other := by
  obtain ⟨text, h⟩ := h
  exact value?_setValue (by rw [h]; rfl) _ other

theorem Awaits.number?_setNumber {t : SymbolTable} {name : String} (h : t.Awaits name)
    (v : Number) (other : String) :
    (t.setValue name (.number v)).number? other =
      if other = name then some v else t.number? other := by
  rw [number?, h.value?_setNumber]
  split <;> rfl

theorem Awaits.number?_setNumber_eq {t : SymbolTable} {name : String} (h : t.Awaits name)
    (v : Number) :
    (t.setValue name (.number v)).number? = Function.update t.number? name (some v) := by
  funext other
  rw [h.number?_setNumber, Function.update_apply]

theorem Awaits.setNumber_le {t : SymbolTable} {name : String} (h : t.Awaits name) (v : Number) :
    Resolver.Le t.number? (t.setValue name (.number v)).number? := by
  intro other w hw
  rw [h.number?_setNumber]
  split
  · next e => rw [e, h.number?_eq] at hw; cases hw
  · exact hw

theorem Awaits.setNumber_of_ne {t : SymbolTable} {name other : String} (h : t.Awaits name)
    (v : Number) (ho : t.Awaits other) (hne : other ≠ name) :
    (t.setValue name (.number v)).Awaits other := by
  obtain ⟨text, ho⟩ := ho
  exact ⟨text, by rw [h.value?_setNumber, if_neg hne, ho]⟩

theorem nodup_names (t : SymbolTable) : (t.toList.map Symbol.name).Nodup := by
  rw [List.nodup_iff_pairwise_ne, List.pairwise_iff_getElem]
  intro i j hi hj hij e
  simp only [List.length_map, toList, Array.length_toList] at hi hj
  simp only [toList, List.getElem_map, Array.getElem_toList] at e
  have hi' := (t.index_iff t.entries[i].name i).mpr (by simp [hi])
  have hj' := (t.index_iff t.entries[j].name j).mpr (by simp [hj])
  rw [e, hj'] at hi'
  obtain rfl := Option.some.inj hi'
  exact Nat.lt_irrefl _ hij

end SymbolTable

namespace Fold

/-! ## What evaluation says about a symbol -/

/-- How a symbol is reported when `known` is all that is known. -/
def Pending.skipped? (known : Resolver) (p : Pending) : Option Skipped :=
  match evaluate known p.text with
  | .ok (some _) => none
  | .ok none => some ⟨p, .noValue⟩
  | .error (.unknownSymbol missing) => some ⟨p, .unresolved missing⟩
  | .error cause => some ⟨p, .malformed cause⟩

/-- Every symbol that has a number under `known` has it in `known`. -/
def Closed (work : List Pending) (known : Resolver) : Prop :=
  ∀ p ∈ work, ∀ v, evaluate known p.text = .ok (some v) → known p.name = some v

/-- The symbols of `work` have distinct names and no number in `t`. -/
structure Ready (t : SymbolTable) (work : List Pending) : Prop where
  nodup : (work.map Pending.name).Nodup
  awaits : ∀ p ∈ work, t.Awaits p.name

theorem evaluate_of_le {R R' : Resolver} (h : R.Le R') {text : String}
    {r : Except EvalError (Option Number)} (hr : evaluate R text = r) (hk : Known r) :
    evaluate R' text = r := by
  rcases evaluate_lockstep h text with ⟨x, hx, -⟩ | ⟨-, e⟩
  · exact absurd rfl (hk _ (hr ▸ hx) x)
  · rw [e, hr]

namespace Ready

variable {t : SymbolTable} {p : Pending} {rest : List Pending}

theorem tail (h : Ready t (p :: rest)) : Ready t rest :=
  ⟨(List.nodup_cons.mp h.nodup).2, fun q hq => h.awaits q (List.mem_cons_of_mem p hq)⟩

theorem head (h : Ready t (p :: rest)) : t.Awaits p.name := h.awaits p List.mem_cons_self

theorem resolved (h : Ready t (p :: rest)) (v : Number) :
    Ready (t.setValue p.name (.number v)) rest := by
  refine ⟨h.tail.nodup, fun q hq => h.head.setNumber_of_ne v (h.tail.awaits q hq) ?_⟩
  intro e
  exact (List.nodup_cons.mp h.nodup).1 (e ▸ List.mem_map_of_mem hq)

end Ready

/-! ## One pass -/

theorem pass_le {t : SymbolTable} {work : List Pending} (h : Ready t work) :
    Resolver.Le t.number? (pass t work).table.number? := by
  fun_induction pass t work with
  | case1 => exact .refl _
  | case2 t p rest v e r ih => exact (h.head.setNumber_le v).trans (ih (h.resolved v))
  | case3 t p rest e r ih => exact ih h.tail
  | case4 t p rest x e r ih => exact ih h.tail
  | case5 t p rest cause hk e r ih => exact ih h.tail

/-- A name has the value from before, or the number of a symbol that the pass resolved. -/
theorem pass_value? {t : SymbolTable} {work : List Pending} (h : Ready t work) (name : String) :
    (pass t work).table.value? name = t.value? name ∨
      ∃ p ∈ work, p.name = name ∧ ∃ v, (pass t work).table.value? name = some (.number v) ∧
        evaluate (pass t work).table.number? p.text = .ok (some v) := by
  have later {t : SymbolTable} {p : Pending} {rest : List Pending}
      (ih : (pass t rest).table.value? name = t.value? name ∨
        ∃ q ∈ rest, q.name = name ∧ ∃ v, (pass t rest).table.value? name = some (.number v) ∧
          evaluate (pass t rest).table.number? q.text = .ok (some v)) :
      (pass t rest).table.value? name = t.value? name ∨
        ∃ q ∈ p :: rest, q.name = name ∧
          ∃ v, (pass t rest).table.value? name = some (.number v) ∧
            evaluate (pass t rest).table.number? q.text = .ok (some v) :=
    ih.imp_right fun ⟨q, hq, hv⟩ => ⟨q, List.mem_cons_of_mem p hq, hv⟩
  fun_induction pass t work with
  | case1 => exact .inl rfl
  | case2 t p rest v e r ih =>
    rcases later (ih (h.resolved v)) with same | found
    · rw [h.head.value?_setNumber] at same
      split at same
      · next hn =>
        have le := (h.head.setNumber_le v).trans (pass_le (h.resolved v))
        exact .inr ⟨p, List.mem_cons_self, hn.symm, v, same,
          evaluate_of_le le e (FailsWith.ok _)⟩
      · exact .inl same
    · exact .inr found
  | case3 t p rest e r ih => exact later (ih h.tail)
  | case4 t p rest x e r ih => exact later (ih h.tail)
  | case5 t p rest cause hk e r ih => exact later (ih h.tail)

/-- What holds of the numbers from before, and is kept when a symbol without a number gets the
one that its evaluation gives, holds of the numbers after a pass. -/
theorem pass_invariant (P : Resolver → Prop) {t : SymbolTable} {work : List Pending}
    (h : Ready t work)
    (keeps : ∀ p ∈ work, ∀ (K : Resolver) (v : Number), P K → K p.name = none →
      evaluate K p.text = .ok (some v) → P (Function.update K p.name (some v)))
    (start : P t.number?) : P (pass t work).table.number? := by
  have rest {p : Pending} {rest : List Pending} {Q : Pending → Prop} (all : ∀ q ∈ p :: rest, Q q) :
      ∀ q ∈ rest, Q q := fun q hq => all q (List.mem_cons_of_mem p hq)
  fun_induction pass t work with
  | case1 => exact start
  | case2 t p work v e r ih =>
    refine ih (h.resolved v) (rest keeps) ?_
    rw [h.head.number?_setNumber_eq]
    exact keeps p List.mem_cons_self _ v start h.head.number?_eq e
  | case3 t p work e r ih => exact ih h.tail (rest keeps) start
  | case4 t p work x e r ih => exact ih h.tail (rest keeps) start
  | case5 t p work cause hk e r ih => exact ih h.tail (rest keeps) start

/-- No binding is found that a closed resolver above the table lacks. -/
theorem pass_least {t : SymbolTable} {work : List Pending} (h : Ready t work) {K : Resolver}
    (le : Resolver.Le t.number? K) (closed : Closed work K) :
    Resolver.Le (pass t work).table.number? K := by
  refine pass_invariant (Resolver.Le · K) h (fun p hp K' v le' _ e name w hw => ?_) le
  rw [Function.update_apply] at hw
  split at hw
  · next hn =>
    obtain rfl := Option.some.inj hw
    rw [hn]
    exact closed p hp v (evaluate_of_le le' e (FailsWith.ok _))
  · exact le' name w hw

/-- Every symbol is resolved, fails or waits. -/
theorem pass_count (t : SymbolTable) (work : List Pending) :
    (pass t work).resolved + (pass t work).failed.length + (pass t work).waiting.length =
      work.length := by
  fun_induction pass t work with
  | case1 => rfl
  | case2 t p rest v e r ih => simp only [List.length_cons, r]; omega
  | case3 t p rest e r ih => simp only [List.length_cons, r]; omega
  | case4 t p rest x e r ih => simp only [List.length_cons, r]; omega
  | case5 t p rest cause hk e r ih => simp only [List.length_cons, r]; omega

/-- What a pass says about a symbol still holds under the numbers `K` of any later table. -/
theorem pass_skipped {t : SymbolTable} {work : List Pending} (h : Ready t work) {K : Resolver}
    (le : Resolver.Le (pass t work).table.number? K) :
    ((pass t work).failed ++
      ((pass t work).waiting.map (·.1)).filterMap (Pending.skipped? K)).Perm
        (work.filterMap (Pending.skipped? K)) := by
  fun_induction pass t work with
  | case1 => exact .refl _
  | case2 t p rest v e r ih =>
    have e' := evaluate_of_le (((h.head.setNumber_le v).trans (pass_le (h.resolved v))).trans le)
      e (FailsWith.ok _)
    have hp : p.skipped? K = none := by rw [Pending.skipped?, e']
    rw [List.filterMap_cons_none hp]
    exact ih (h.resolved v) le
  | case3 t p rest e r ih =>
    have e' := evaluate_of_le ((pass_le h.tail).trans le) e (FailsWith.ok _)
    have hp : p.skipped? K = some ⟨p, .noValue⟩ := by rw [Pending.skipped?, e']
    rw [List.filterMap_cons_some hp]
    exact (ih h.tail le).cons _
  | case4 t p rest x e r ih =>
    rw [List.map_cons]
    cases hp : p.skipped? K with
    | none =>
      rw [List.filterMap_cons_none hp, List.filterMap_cons_none hp]
      exact ih h.tail le
    | some s =>
      rw [List.filterMap_cons_some hp, List.filterMap_cons_some hp]
      exact List.perm_middle.trans ((ih h.tail le).cons s)
  | case5 t p rest cause hk e r ih =>
    have e' := evaluate_of_le ((pass_le h.tail).trans le) e (FailsWith.error hk)
    have hp : p.skipped? K = some ⟨p, .malformed cause⟩ := by
      unfold Pending.skipped?
      rw [e']
      split
      · next h => cases h
      · next h => cases h
      · next x h => cases h; exact absurd rfl (hk x)
      · next h => cases h; rfl
    rw [List.filterMap_cons_some hp]
    exact (ih h.tail le).cons _

/-- A symbol is resolved, fails or waits. -/
theorem pass_covers {t : SymbolTable} {work : List Pending} (h : Ready t work) {p : Pending}
    (hp : p ∈ work) :
    ((pass t work).table.number? p.name).isSome ∨ (∃ s ∈ (pass t work).failed, s.symbol = p) ∨
      p ∈ (pass t work).waiting.map (·.1) := by
  fun_induction pass t work with
  | case1 => cases hp
  | case2 t q rest v e r ih =>
    rcases List.mem_cons.mp hp with rfl | hp
    · refine .inl ?_
      rw [pass_le (h.resolved v) p.name v (by rw [h.head.number?_setNumber, if_pos rfl])]
      rfl
    · exact ih (h.resolved v) hp
  | case3 t q rest e r ih =>
    rcases List.mem_cons.mp hp with rfl | hp
    · exact .inr (.inl ⟨_, List.mem_cons_self, rfl⟩)
    · have later := ih h.tail hp
      exact later.imp_right (.imp_left (Exists.imp fun s => And.imp_left (List.mem_cons_of_mem _)))
  | case4 t q rest x e r ih =>
    rcases List.mem_cons.mp hp with rfl | hp
    · exact .inr (.inr List.mem_cons_self)
    · exact (ih h.tail hp).imp_right (.imp_right (List.mem_cons_of_mem _))
  | case5 t q rest cause hk e r ih =>
    rcases List.mem_cons.mp hp with rfl | hp
    · exact .inr (.inl ⟨_, List.mem_cons_self, rfl⟩)
    · have later := ih h.tail hp
      exact later.imp_right (.imp_left (Exists.imp fun s => And.imp_left (List.mem_cons_of_mem _)))

/-- A pass that resolves nothing leaves the table, and its unknown names are unknown to it. -/
theorem pass_idle {t : SymbolTable} {work : List Pending} (h : (pass t work).resolved = 0) :
    (pass t work).table = t ∧
      ∀ w ∈ (pass t work).waiting, evaluate t.number? w.1.text = .error (.unknownSymbol w.2) := by
  fun_induction pass t work with
  | case1 => exact ⟨rfl, fun _ hw => absurd hw List.not_mem_nil⟩
  | case2 t p rest v e r ih => simp at h
  | case3 t p rest e r ih => exact ih h
  | case4 t p rest x e r ih =>
    refine ⟨(ih h).1, fun w hw => ?_⟩
    rcases List.mem_cons.mp hw with rfl | hw
    · exact e
    · exact (ih h).2 w hw
  | case5 t p rest cause hk e r ih => exact ih h

theorem pass_awaits {t : SymbolTable} {work : List Pending} (h : Ready t work) :
    ∀ p ∈ (pass t work).waiting.map (·.1), (pass t work).table.Awaits p.name := by
  fun_induction pass t work with
  | case1 => exact fun _ hp => absurd hp List.not_mem_nil
  | case2 t p rest v e r ih => exact ih (h.resolved v)
  | case3 t p rest e r ih => exact ih h.tail
  | case4 t p rest x e r ih =>
    intro q hq
    rcases List.mem_cons.mp hq with rfl | hq
    · obtain ⟨text, ht⟩ := h.head
      refine ⟨text, ?_⟩
      rcases pass_value? h.tail q.name with same | ⟨q', hq', hn, -⟩
      · exact same.trans ht
      · exact absurd (hn ▸ List.mem_map_of_mem hq') (List.nodup_cons.mp h.nodup).1
    · exact ih h.tail q hq
  | case5 t p rest cause hk e r ih => exact ih h.tail

theorem Ready.waiting {t : SymbolTable} {work : List Pending} (h : Ready t work) :
    Ready (pass t work).table ((pass t work).waiting.map (·.1)) :=
  ⟨((pass_waiting t work).map Pending.name).nodup h.nodup, pass_awaits h⟩

/-! ## All passes -/

/-- What passes over the symbols `work` of a table `t` reach. -/
structure Reached (t : SymbolTable) (work : List Pending) (r : SymbolTable × Report) : Prop where
  le : Resolver.Le t.number? r.1.number?
  value? : ∀ name, r.1.value? name = t.value? name ∨
    ∃ p ∈ work, p.name = name ∧ ∃ v, r.1.value? name = some (.number v) ∧
      evaluate r.1.number? p.text = .ok (some v)
  least : ∀ K, Resolver.Le t.number? K → Closed work K → Resolver.Le r.1.number? K
  covers : ∀ p ∈ work, (r.1.number? p.name).isSome ∨ ∃ s ∈ r.2.skipped, s.symbol = p
  skipped : r.2.skipped.Perm (work.filterMap (Pending.skipped? r.1.number?))

/-- The last pass, when it resolved nothing. -/
theorem reached_of_idle {t : SymbolTable} {work : List Pending} (h : Ready t work)
    (idle : (pass t work).resolved = 0) {report : Report}
    (hr : report.skipped = (pass t work).failed ++
      (pass t work).waiting.map fun (p, missing) => ⟨p, .unresolved missing⟩) :
    Reached t work ((pass t work).table, report) where
  le := pass_le h
  value? := pass_value? h
  least _ le closed := pass_least h le closed
  covers p hp := by
    refine (pass_covers h hp).imp_right fun found => ?_
    rw [hr]
    rcases found with ⟨s, hs, e⟩ | hw
    · exact ⟨s, List.mem_append_left _ hs, e⟩
    · obtain ⟨w, hm, rfl⟩ := List.mem_map.mp hw
      exact ⟨_, List.mem_append_right _ (List.mem_map_of_mem hm), rfl⟩
  skipped := by
    obtain ⟨same, unknown⟩ := pass_idle idle
    refine List.Perm.trans ?_ (pass_skipped h (.refl _))
    rw [hr, same, List.filterMap_map]
    refine .of_eq (congrArg _ (List.filterMap_eq_map_iff_forall_eq_some.mpr fun w hw => ?_).symm)
    rw [Function.comp, Pending.skipped?, unknown w hw]

/-- A pass, and then passes over the symbols that it left waiting. -/
theorem Reached.after_pass {t : SymbolTable} {work : List Pending} (h : Ready t work)
    {r : SymbolTable × Report}
    (rest : Reached (pass t work).table ((pass t work).waiting.map (·.1)) r) {report : Report}
    (hr : report.skipped = (pass t work).failed ++ r.2.skipped) :
    Reached t work (r.1, report) where
  le := (pass_le h).trans rest.le
  value? name := by
    have sub := (pass_waiting t work).subset
    rcases rest.value? name with same | ⟨p, hp, hn, v, hv⟩
    · rcases pass_value? h name with same' | ⟨p, hp, hn, v, hv, e⟩
      · exact .inl (same.trans same')
      · exact .inr ⟨p, hp, hn, v, same.trans hv, evaluate_of_le rest.le e (FailsWith.ok _)⟩
    · exact .inr ⟨p, sub hp, hn, v, hv⟩
  least K le closed :=
    rest.least K (pass_least h le closed) fun p hp => closed p ((pass_waiting t work).subset hp)
  covers p hp := by
    rw [hr]
    rcases pass_covers h hp with found | ⟨s, hs, e⟩ | hw
    · obtain ⟨v, hv⟩ := Option.isSome_iff_exists.mp found
      exact .inl (Option.isSome_iff_exists.mpr ⟨v, rest.le p.name v hv⟩)
    · exact .inr ⟨s, List.mem_append_left _ hs, e⟩
    · exact (rest.covers p hw).imp_right fun ⟨s, hs, e⟩ => ⟨s, List.mem_append_right _ hs, e⟩
  skipped := by
    rw [hr]
    exact (rest.skipped.append_left _).trans (pass_skipped h rest.le)

/-- What the numbers of symbols keep holds after any number of passes. -/
theorem passes_invariant (P : Resolver → Prop) {more : Nat} {t : SymbolTable}
    {work : List Pending} (h : Ready t work)
    (keeps : ∀ p ∈ work, ∀ (K : Resolver) (v : Number), P K → K p.name = none →
      evaluate K p.text = .ok (some v) → P (Function.update K p.name (some v)))
    (start : P t.number?) : P (passes more t work).1.number? := by
  have first := pass_invariant P h keeps start
  induction more generalizing t work with
  | zero => exact first
  | succ more ih =>
    rw [passes]
    dsimp only
    split
    · exact first
    · have keeps' := fun p hp => keeps p ((pass_waiting t work).subset hp)
      exact ih h.waiting keeps' first (pass_invariant P h.waiting keeps' first)

/-- As many further passes as there are symbols suffice: all but the last resolve one. -/
theorem passes_reached {more : Nat} {t : SymbolTable} {work : List Pending} (h : Ready t work)
    (enough : work.length ≤ more) : Reached t work (passes more t work) := by
  induction more generalizing t work with
  | zero =>
    obtain rfl := List.length_eq_zero_iff.mp (Nat.le_zero.mp enough)
    exact reached_of_idle h rfl rfl
  | succ more ih =>
    rw [passes]
    dsimp only
    split
    · next idle => exact reached_of_idle h idle rfl
    · next busy =>
      have len := pass_count t work
      exact (ih h.waiting (by rw [List.length_map]; omega)).after_pass h rfl

end Fold

end ConstLookup
