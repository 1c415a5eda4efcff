import ConstLookup.Proofs.Symbol.Accounting
import Mathlib.Data.Finset.Card
import Mathlib.Data.List.Dedup

/-!
  What a symbol table keeps of the insertions and folding runs that made it
  (`tableAfter_history`). A table is an insertion-ordered map: names stand in the order of their
  first insertion (`names_insert`), a folding run keeps all that was declared and turns the value of
  each symbol into what its own expression gives (`exists_of_mem_fold`). So by induction on the
  operations each symbol is that of the last insertion of its name, with the value that a folding
  run after it left, if one changed it (`Recalls`).
-/

namespace ConstLookup

namespace SymbolTable

/-! ## Insertion -/

theorem mem_names_iff {t : SymbolTable} {name : String} :
    name ∈ t.toList.map Symbol.name ↔ (t.get? name).isSome := by
  rw [List.mem_map, Option.isSome_iff_exists]
  exact exists_congr fun s => get?_eq_some_iff.symm

theorem mem_insert {t : SymbolTable} {s s' : Symbol} :
    s' ∈ (t.insert s).toList ↔ s' = s ∨ (s' ∈ t.toList ∧ s'.name ≠ s.name) := by
  have found {t : SymbolTable} : s' ∈ t.toList ↔ t.get? s'.name = some s' := by
    rw [get?_eq_some_iff, and_iff_left rfl]
  rw [found, get?_insert, found]
  split
  next same =>
    rw [Option.some.injEq, eq_comm, or_iff_left fun other => other.2 same]
  next other =>
    rw [and_iff_left other, or_iff_right]
    rintro rfl
    exact other rfl

/-- The names of a table stand in the order of their first insertion. -/
theorem names_insert (t : SymbolTable) (s : Symbol) :
    (t.insert s).toList.map Symbol.name =
      if s.name ∈ t.toList.map Symbol.name then t.toList.map Symbol.name
      else t.toList.map Symbol.name ++ [s.name] := by
  unfold insert
  split
  next i hi =>
    have here := (t.index_iff s.name i).mp hi
    obtain ⟨old, found, same⟩ := Option.map_eq_some_iff.mp here
    have mem : old ∈ t.toList := Array.mem_toList_iff.mpr (Array.mem_of_getElem? found)
    rw [if_pos (same ▸ List.mem_map_of_mem mem), map_setAt Symbol.name here here]
  next absent =>
    have other : s.name ∉ t.toList.map Symbol.name := by
      rw [mem_names_iff, get?, absent]
      exact Bool.false_ne_true
    rw [if_neg other]
    simp [push, toList]

end SymbolTable

namespace Fold

/-! ## Folding -/

/-- What a folding run makes of the value of a symbol, where `known` are the numbers that are known
in the end. -/
inductive Refolds (known : Resolver) : SymbolValue → SymbolValue → Prop where
  | number (v : Number) : Refolds known (.number v) (.number v)
  | resolved {text : String} {v : Number} (h : evaluate known text = .ok (some v)) :
    Refolds known (.expr text) (.number v)
  | marked (text : String) : Refolds known (.expr text) (.expr (HexShield.shield text))

/-- A name has the value from before, or the number that one of the symbols tried has under the
numbers in the end. -/
theorem passes_value? {more : Nat} {t : SymbolTable} {work : List Pending} (h : Ready t work)
    (name : String) :
    (passes more t work).1.value? name = t.value? name ∨
      ∃ p ∈ work, p.name = name ∧ ∃ v, (passes more t work).1.value? name = some (.number v) ∧
        evaluate (passes more t work).1.number? p.text = .ok (some v) := by
  induction more generalizing t work with
  | zero => exact pass_value? h name
  | succ more ih =>
    rw [passes]
    dsimp only
    split
    next => exact pass_value? h name
    next =>
      rcases ih h.waiting with same | ⟨p, hp, found⟩
      · rcases pass_value? h name with first | ⟨p, hp, own, v, value, e⟩
        · exact .inl (same.trans first)
        · exact .inr ⟨p, hp, own, v, same.trans value,
            evaluate_of_le (passes_le more h.waiting) e (FailsWith.ok _)⟩
      · exact .inr ⟨p, (pass_waiting t work).subset hp, found⟩

/-- A folding run turns each symbol into one with the same name, kind and location, and with the
value that its own expression gives. -/
theorem exists_of_mem_fold {maxPasses : Nat} {t : SymbolTable} {s' : Symbol}
    (h : s' ∈ (fold maxPasses t).1.toList) :
    ∃ s ∈ t.toList, s'.declared = s.declared ∧
      Refolds (fold maxPasses t).1.number? s.value s'.value := by
  have declared : s'.declared ∈ t.toList.map Symbol.declared := by
    rw [← fold_declared]
    exact List.mem_map_of_mem h
  obtain ⟨s, hs, same⟩ := List.mem_map.mp declared
  have own : s.name = s'.name := congrArg Prod.fst same
  have before : t.value? s'.name = some s.value :=
    SymbolTable.value?_eq_some_iff.mpr ⟨s, hs, own, rfl⟩
  have after : (fold maxPasses t).1.value? s'.name = some s'.value :=
    SymbolTable.value?_eq_some_iff.mpr ⟨s', h, rfl, rfl⟩
  refine ⟨s, hs, same.symm, ?_⟩
  rcases passes_value? (ready_pending t) s'.name with kept | ⟨p, hp, other, v, value, e⟩
  · change (fold maxPasses t).1.value? s'.name = _ at kept
    rw [after, marked, SymbolTable.value?_mapValues, before, Option.map_some,
      Option.some.injEq] at kept
    rw [kept]
    cases s.value with
    | number v => exact .number v
    | expr text => exact .marked text
  · change (fold maxPasses t).1.value? s'.name = _ at value
    have text := pending_value? hp
    rw [other, before, Option.some.injEq] at text
    rw [after, Option.some.injEq] at value
    rw [text, value]
    exact .resolved e

end Fold

/-! ## Histories -/

/-- What is done to a table. -/
inductive Operation where
  | insert (s : Symbol)
  | fold (maxPasses : Nat)

/-- The table after an operation. -/
def Operation.apply (t : SymbolTable) : Operation → SymbolTable
  | insert s => t.insert s
  | fold maxPasses => (Fold.fold maxPasses t).1

/-- The table that operations make, one after the other. -/
def tableAfter (ops : List Operation) : SymbolTable := ops.foldl Operation.apply .empty

/-- The symbols that operations insert, in order. -/
def inserted (ops : List Operation) : List Symbol :=
  ops.filterMap fun
    | .insert s => some s
    | .fold _ => none

/-- A folding run among the operations `after` those of `before` left a name the value in place of
another one. -/
def Replaced (before after : List Operation) (name : String) (value : SymbolValue) : Prop :=
  ∃ mid maxPasses rest old, after = mid ++ .fold maxPasses :: rest ∧
    (tableAfter (before ++ mid)).value? name = some old ∧ old ≠ value ∧
    (tableAfter (before ++ mid ++ [.fold maxPasses])).value? name = some value ∧
    Fold.Refolds (tableAfter (before ++ mid ++ [.fold maxPasses])).number? old value

/-- A symbol is that of the last insertion of its name, with the value that it had there or the one
that a folding run put in its place. -/
def Recalls (ops : List Operation) (s : Symbol) : Prop :=
  ∃ before last after, ops = before ++ .insert last :: after ∧
    (∀ later ∈ inserted after, later.name ≠ s.name) ∧ s.declared = last.declared ∧
    (s.value = last.value ∨ Replaced (before ++ [.insert last]) after s.name s.value)

section Steps

variable {ops : List Operation} {s : Symbol}

theorem tableAfter_concat (ops : List Operation) (op : Operation) :
    tableAfter (ops ++ [op]) = op.apply (tableAfter ops) :=
  List.foldl_concat ..

theorem inserted_append (ops more : List Operation) :
    inserted (ops ++ more) = inserted ops ++ inserted more :=
  List.filterMap_append ..

theorem Replaced.append {before after : List Operation} {name : String} {value : SymbolValue}
    (h : Replaced before after name value) (more : List Operation) :
    Replaced before (after ++ more) name value := by
  obtain ⟨mid, maxPasses, rest, old, rfl, found⟩ := h
  exact ⟨mid, maxPasses, rest ++ more, old, by rw [List.append_assoc, List.cons_append], found⟩

theorem recalls_insert (ops : List Operation) (s : Symbol) : Recalls (ops ++ [.insert s]) s :=
  ⟨ops, s, [], rfl, nofun, rfl, .inl rfl⟩

/-- An operation that inserts no symbol of the name leaves what its symbol recalls. -/
theorem Recalls.concat (h : Recalls ops s) {op : Operation}
    (other : ∀ later ∈ inserted [op], later.name ≠ s.name) : Recalls (ops ++ [op]) s := by
  obtain ⟨before, last, after, rfl, fresh, declared, value⟩ := h
  refine ⟨before, last, after ++ [op], by rw [List.append_assoc, List.cons_append], ?_, declared,
    value.imp_right (·.append [op])⟩
  rw [inserted_append]
  exact List.forall_mem_append.mpr ⟨fresh, other⟩

/-- A folding run replaces the value of a symbol or leaves it. -/
theorem Recalls.fold (h : Recalls ops s) (mem : s ∈ (tableAfter ops).toList) {maxPasses : Nat}
    {s' : Symbol} (mem' : s' ∈ (tableAfter (ops ++ [.fold maxPasses])).toList)
    (declared : s'.declared = s.declared)
    (refolds : Fold.Refolds (tableAfter (ops ++ [.fold maxPasses])).number? s.value s'.value) :
    Recalls (ops ++ [.fold maxPasses]) s' := by
  have own : s'.name = s.name := congrArg Prod.fst declared
  by_cases same : s.value = s'.value
  · have whole : s' = s := by
      obtain ⟨name, value, kind, location⟩ := s
      simp only [Symbol.declared, Prod.mk.injEq] at declared
      obtain ⟨rfl, rfl, rfl⟩ := declared
      rw [show value = s'.value from same]
    rw [whole]
    exact h.concat (List.forall_mem_nil _)
  · obtain ⟨before, last, after, rfl, fresh, first, -⟩ := h
    have old := SymbolTable.value?_eq_some_iff.mpr ⟨s, mem, own.symm, rfl⟩
    have new := SymbolTable.value?_eq_some_iff.mpr ⟨s', mem', rfl, rfl⟩
    have shape : before ++ .insert last :: after = before ++ [.insert last] ++ after := by
      rw [List.append_assoc, List.singleton_append]
    rw [shape] at old new refolds
    refine ⟨before, last, after ++ [.fold maxPasses], by rw [List.append_assoc, List.cons_append],
      ?_, declared.trans first, .inr ⟨after, maxPasses, [], s.value, rfl, old, same, new, refolds⟩⟩
    rw [inserted_append, own]
    exact List.forall_mem_append.mpr ⟨fresh, List.forall_mem_nil _⟩

end Steps

/-- What a table shows of the operations that made it. -/
structure Shows (ops : List Operation) (t : SymbolTable) : Prop where
  names : t.toList.map Symbol.name = ((inserted ops).map Symbol.name).eraseDups
  recalls : ∀ s ∈ t.toList, Recalls ops s

theorem Shows.insert {ops : List Operation} (h : Shows ops (tableAfter ops)) (s : Symbol) :
    Shows (ops ++ [.insert s]) (tableAfter (ops ++ [.insert s])) where
  names := by
    have last : (inserted [.insert s]).map Symbol.name = [s.name] := rfl
    rw [tableAfter_concat, Operation.apply, SymbolTable.names_insert, h.names, inserted_append,
      List.map_append, last, List.eraseDups_append]
    by_cases old : s.name ∈ (inserted ops).map Symbol.name
    · have gone : [s.name].removeAll ((inserted ops).map Symbol.name) = [] := by
        simpa [List.removeAll] using old
      rw [if_pos (List.mem_eraseDups.mpr old), gone, List.eraseDups_nil, List.append_nil]
    · have kept : [s.name].removeAll ((inserted ops).map Symbol.name) = [s.name] := by
        simpa [List.removeAll] using old
      rw [if_neg (mt List.mem_eraseDups.mp old), kept]
      rfl
  recalls s' mem := by
    rw [tableAfter_concat, Operation.apply, SymbolTable.mem_insert] at mem
    rcases mem with rfl | ⟨mem, other⟩
    · exact recalls_insert ops s'
    · exact (h.recalls s' mem).concat (List.forall_mem_singleton.mpr other.symm)

theorem Shows.fold {ops : List Operation} (h : Shows ops (tableAfter ops)) (maxPasses : Nat) :
    Shows (ops ++ [.fold maxPasses]) (tableAfter (ops ++ [.fold maxPasses])) where
  names := by
    have own : Symbol.name = Prod.fst ∘ Symbol.declared := rfl
    rw [tableAfter_concat, Operation.apply, own, ← List.map_map, Fold.fold_declared,
      List.map_map, ← own, h.names, inserted_append]
    exact congrArg (fun l => (List.map Symbol.name l).eraseDups) (List.append_nil _).symm
  recalls s' mem := by
    have mem' := mem
    rw [tableAfter_concat] at mem
    obtain ⟨s, hs, declared, refolds⟩ := Fold.exists_of_mem_fold mem
    exact (h.recalls s hs).fold hs mem' declared (by rw [tableAfter_concat]; exact refolds)

theorem shows_tableAfter (ops : List Operation) : Shows ops (tableAfter ops) := by
  induction ops using List.reverseRecOn with
  | nil => exact ⟨rfl, nofun⟩
  | append_singleton ops op ih =>
    cases op with
    | insert s => exact ih.insert s
    | fold maxPasses => exact ih.fold maxPasses

/-- A table is an insertion-ordered map of the operations that made it.

Each inserted name stands in it once, in the order of the first insertions, and is found; no other
name is. What is found of a name is its symbol in the table: name, kind and location are those of
its last insertion, and so is the value, unless a folding run after it put in another one, which
its own expression gave. The size is the number of distinct names. Positions in the index are inside
the table and hold a symbol of their name. -/
theorem tableAfter_history (ops : List Operation) :
    let t := tableAfter ops
    let names := (inserted ops).map Symbol.name
    t.toList.map Symbol.name = names.eraseDups ∧ (t.toList.map Symbol.name).Nodup ∧
    (∀ name, (t.get? name).isSome ↔ name ∈ names) ∧
    (∀ name s, t.get? name = some s ↔ s ∈ t.toList ∧ s.name = name) ∧
    (∀ s ∈ t.toList, Recalls ops s) ∧
    t.size = names.toFinset.card ∧
    ∀ name i, t.index[name]? = some i → ∃ h : i < t.entries.size, t.entries[i].name = name := by
  intro t names
  have shows := shows_tableAfter ops
  have distinct := t.nodup_names
  refine ⟨shows.names, distinct, fun name => ?_, fun name s => SymbolTable.get?_eq_some_iff,
    shows.recalls, ?_, fun name i found => ?_⟩
  · rw [← SymbolTable.mem_names_iff, shows.names, List.mem_eraseDups]
  · have same : (t.toList.map Symbol.name).toFinset = names.toFinset := by
      ext name
      rw [List.mem_toFinset, List.mem_toFinset, shows.names, List.mem_eraseDups]
    rw [← same, List.toFinset_card_of_nodup distinct, List.length_map]
    rfl
  · obtain ⟨s, here, own⟩ := Option.map_eq_some_iff.mp ((t.index_iff name i).mp found)
    obtain ⟨inside, entry⟩ := Array.getElem?_eq_some_iff.mp here
    exact ⟨inside, entry ▸ own⟩

end ConstLookup
