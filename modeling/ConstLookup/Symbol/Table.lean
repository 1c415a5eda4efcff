import ConstLookup.Symbol.Basic
import Std.Data.HashMap

/-!
  Symbol tables: symbols in the order of the first insertion of their names. Inserting a name
  again replaces its symbol where it stands. The index finds the position of a name; a table
  carries the proof that it finds exactly the positions that hold the name, so names are
  distinct.
-/

namespace ConstLookup

/-- An insertion-ordered table of symbols with distinct names. -/
structure SymbolTable where
  entries : Array Symbol
  index : Std.HashMap String Nat
  index_iff : ∀ name i, index[name]? = some i ↔ entries[i]?.map Symbol.name = some name

namespace SymbolTable

/-- The table without symbols. -/
def empty : SymbolTable where
  entries := #[]
  index := ∅
  index_iff := by simp

instance : Inhabited SymbolTable := ⟨empty⟩

/-- Replace the symbol at a position by one of the same name. -/
def setAt (t : SymbolTable) (i : Nat) (s : Symbol)
    (same : t.entries[i]?.map Symbol.name = some s.name) : SymbolTable where
  entries := t.entries.setIfInBounds i s
  index := t.index
  index_iff name j := by
    rw [t.index_iff, Array.getElem?_setIfInBounds]
    by_cases hij : i = j
    · subst hij
      obtain ⟨old, ho, _⟩ := Option.map_eq_some_iff.mp same
      have hb : i < t.entries.size := (Array.getElem?_eq_some_iff.mp ho).1
      rw [same]
      simp [hb]
    · simp [hij]

/-- Append a symbol whose name is not in the table. -/
def push (t : SymbolTable) (s : Symbol) (fresh : t.index[s.name]? = none) : SymbolTable where
  entries := t.entries.push s
  index := t.index.insert s.name t.entries.size
  index_iff name j := by
    have absent : ∀ i : Nat, t.entries[i]?.map Symbol.name ≠ some s.name := by
      intro i e
      have := (t.index_iff s.name i).mpr e
      rw [fresh] at this
      cases this
    rw [Std.HashMap.getElem?_insert, Array.getElem?_push]
    by_cases hn : s.name = name
    · subst hn
      simp only [BEq.rfl, if_true, Option.some.injEq]
      by_cases hj : j = t.entries.size
      · simp [hj]
      · have := absent j
        simp only [hj, if_false]
        constructor
        · intro e; exact absurd e.symm hj
        · intro e; exact absurd e this
    · have hb : (s.name == name) = false := by simpa using hn
      simp only [hb, Bool.false_eq_true, if_false]
      rw [t.index_iff]
      by_cases hj : j = t.entries.size
      · subst hj; simp [hn]
      · simp [hj]

/-- Insert a symbol, or replace the one of the same name where it stands. -/
def insert (t : SymbolTable) (s : Symbol) : SymbolTable :=
  match h : t.index[s.name]? with
  | some i => t.setAt i s ((t.index_iff s.name i).mp h)
  | none => t.push s h

/-- The symbol of a name. -/
def get? (t : SymbolTable) (name : String) : Option Symbol :=
  match t.index[name]? with
  | some i => t.entries[i]?
  | none => none

/-- The value of a name. -/
def value? (t : SymbolTable) (name : String) : Option SymbolValue := (t.get? name).map (·.value)

/-- The number of a name, once folded. -/
def number? (t : SymbolTable) (name : String) : Option Number :=
  (t.value? name).bind SymbolValue.number?

/-- Give a name that is in the table another value. -/
def setValue (t : SymbolTable) (name : String) (v : SymbolValue) : SymbolTable :=
  match t.get? name with
  | some s => t.insert { s with value := v }
  | none => t

/-- Apply `f` to every value. -/
def mapValues (t : SymbolTable) (f : SymbolValue → SymbolValue) : SymbolTable where
  entries := t.entries.map fun s => { s with value := f s.value }
  index := t.index
  index_iff name i := by
    rw [t.index_iff, Array.getElem?_map]
    cases t.entries[i]? <;> simp

/-- The symbols in order. -/
def toList (t : SymbolTable) : List Symbol := t.entries.toList

/-- Number of symbols. -/
def size (t : SymbolTable) : Nat := t.entries.size

/-- The table has no symbols. -/
def isEmpty (t : SymbolTable) : Bool := t.entries.isEmpty

theorem get?_eq_some_iff {t : SymbolTable} {name : String} {s : Symbol} :
    t.get? name = some s ↔ s ∈ t.toList ∧ s.name = name := by
  unfold get? toList
  constructor
  · intro h
    split at h
    · next i hi =>
      have e := (t.index_iff name i).mp hi
      rw [h] at e
      refine ⟨?_, by simpa using e⟩
      exact Array.mem_toList_iff.mpr (Array.mem_of_getElem? h)
    · cases h
  · rintro ⟨hm, e⟩
    obtain ⟨i, hi⟩ := Array.mem_iff_getElem?.mp (Array.mem_toList_iff.mp hm)
    rw [(t.index_iff name i).mpr (by rw [hi]; simp [e])]
    exact hi

/-! ## What each operation does to the symbol of a name -/

theorem get?_setAt (t : SymbolTable) (i : Nat) (s : Symbol)
    (same : t.entries[i]?.map Symbol.name = some s.name) (name : String) :
    (t.setAt i s same).get? name = if name = s.name then some s else t.get? name := by
  have hi := (t.index_iff s.name i).mpr same
  unfold get? setAt
  dsimp only
  by_cases hn : name = s.name
  · obtain ⟨old, ho, _⟩ := Option.map_eq_some_iff.mp same
    have hb : i < t.entries.size := (Array.getElem?_eq_some_iff.mp ho).1
    rw [if_pos hn, hn, hi]
    simp [hb]
  · rw [if_neg hn]
    cases hj : t.index[name]? with
    | none => rfl
    | some j =>
      have hij : i ≠ j := by
        rintro rfl
        have e := (t.index_iff name i).mp hj
        rw [same] at e
        exact hn (Option.some.inj e).symm
      simp [hij]

theorem get?_push (t : SymbolTable) (s : Symbol) (fresh : t.index[s.name]? = none)
    (name : String) :
    (t.push s fresh).get? name = if name = s.name then some s else t.get? name := by
  unfold get? push
  dsimp only
  rw [Std.HashMap.getElem?_insert]
  by_cases hn : name = s.name
  · subst hn
    simp
  · rw [if_neg (by simpa using Ne.symm hn), if_neg hn]
    cases hj : t.index[name]? with
    | none => rfl
    | some j =>
      obtain ⟨old, ho, _⟩ := Option.map_eq_some_iff.mp ((t.index_iff name j).mp hj)
      have hb : j < t.entries.size := (Array.getElem?_eq_some_iff.mp ho).1
      simp [Array.getElem?_push, Nat.ne_of_lt hb]

theorem get?_empty (name : String) : empty.get? name = none := by
  simp [get?, empty]

theorem get?_insert (t : SymbolTable) (s : Symbol) (name : String) :
    (t.insert s).get? name = if name = s.name then some s else t.get? name := by
  unfold insert
  split
  · exact get?_setAt _ _ _ _ _
  · exact get?_push _ _ _ _

theorem size_insert_le (t : SymbolTable) (s : Symbol) : (t.insert s).size ≤ t.size + 1 := by
  unfold insert
  split
  · simp [size, setAt]
  · simp [size, push]

theorem get?_mapValues (t : SymbolTable) (f : SymbolValue → SymbolValue) (name : String) :
    (t.mapValues f).get? name = (t.get? name).map fun s => { s with value := f s.value } := by
  unfold get? mapValues
  dsimp only
  cases t.index[name]? with
  | none => rfl
  | some i => simp

theorem value?_mapValues (t : SymbolTable) (f : SymbolValue → SymbolValue) (name : String) :
    (t.mapValues f).value? name = (t.value? name).map f := by
  unfold value?
  rw [get?_mapValues]
  cases t.get? name <;> rfl

theorem value?_setValue {t : SymbolTable} {name : String} (h : (t.value? name).isSome)
    (v : SymbolValue) (other : String) :
    (t.setValue name v).value? other = if other = name then some v else t.value? other := by
  unfold setValue
  split
  · next s hs =>
    have hn : s.name = name := (get?_eq_some_iff.mp hs).2
    unfold value?
    rw [get?_insert, hn]
    split <;> rfl
  · next hs => simp [value?, hs] at h

theorem value?_eq_some_iff {t : SymbolTable} {name : String} {v : SymbolValue} :
    t.value? name = some v ↔ ∃ s ∈ t.toList, s.name = name ∧ s.value = v := by
  unfold value?
  rw [Option.map_eq_some_iff]
  constructor
  · rintro ⟨s, hs, rfl⟩
    obtain ⟨hm, hn⟩ := get?_eq_some_iff.mp hs
    exact ⟨s, hm, hn, rfl⟩
  · rintro ⟨s, hm, hn, rfl⟩
    exact ⟨s, get?_eq_some_iff.mpr ⟨hm, hn⟩, rfl⟩

end SymbolTable

end ConstLookup
