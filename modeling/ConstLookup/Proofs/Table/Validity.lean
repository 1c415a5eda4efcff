import ConstLookup.Proofs.Table.Assemble
import ConstLookup.Proofs.Table.IntWidth

/-!
  Every generated table is a valid lookup specification (`transpose_valid`): it has entries with
  distinct values and distinct labels, its type holds all of its values, its name is like no
  other over all headers, and its entries stand for constants that this header declares, with
  the integers that constant folding found for them.
-/

namespace ConstLookup

open ConstLookup.Text Assemble

/-- A table that gives each of its values one label of its own. -/
structure LookupTable.Valid (t : LookupTable) : Prop where
  nonempty : t.entries ≠ []
  values : (t.entries.map (·.representative.value)).Nodup
  labels : (t.entries.map fun e => upper e.label).Nodup
  typed : ∀ ty, t.intType = some ty → ∀ e ∈ t.entries, ty.Holds e.representative.value

/-- The entries of a table stand for members of the enum that it is named for. -/
def LookupTable.ForEnum (e : EnumDecl) (t : LookupTable) : Prop :=
  (∃ n, t.name = nameChoice (upper e.name) n) ∧
    ∀ x ∈ t.entries, ∃ m ∈ e.members, m.name = x.representative.name

/-- The entries of tables stand for constants that a source declares: those of the tables of
enums, in turn, for members of the enums with an integer constant, and those of the other tables
for macros with a body. -/
structure Declares (symbols : SymbolTable) (d : Declarations) (tables : List LookupTable) :
    Prop where
  folded : ∀ t ∈ tables, ∀ x ∈ t.entries, Folded symbols x.representative
  macros : ∀ t ∈ tables, t.origin ≠ .enumeration → ∀ x ∈ t.entries,
    ∃ m ∈ d.macros, m.body.isEmpty = false ∧ m.name = x.representative.name
  enums : List.Forall₂ LookupTable.ForEnum (tabledEnums symbols d)
    (tables.filter fun t => t.origin = .enumeration)

section Made

variable {o : TableOptions} {symbols : SymbolTable} {d : Declarations} {p : Plan}
  {t : LookupTable}

theorem Assemble.Made.valid (h : Made o p t) : t.Valid := by
  obtain ⟨full, n, rfl⟩ := h
  have entries := mergeCollisions_spec p.members
  constructor
  case nonempty =>
    intro empty
    obtain ⟨m, ms, hm⟩ := List.exists_cons_of_ne_nil full
    obtain ⟨x, hx, -⟩ := exists_entry_iff.mpr ⟨m, hm ▸ List.mem_cons_self, rfl⟩
    exact List.ne_nil_of_mem hx empty
  case values =>
    show ((mergeCollisions p.members).map (·.representative.value)).Nodup
    rw [entries.values_eq]
    exact nodup_distinctValues p.members
  case labels => exact entries.nodup
  case typed =>
    intro ty hty x hx
    exact inferType_holds hty (List.mem_map_of_mem hx)

theorem Assemble.Made.member (h : Made o p t) {x : Entry} (hx : x ∈ t.entries) :
    x.representative ∈ p.members := by
  obtain ⟨-, n, rfl⟩ := h
  exact (mergeCollisions_spec p.members).members_mem x hx

theorem Assemble.Made.origin_eq (h : Made o p t) : t.origin = p.origin := by
  obtain ⟨-, n, rfl⟩ := h
  rfl

theorem folded_of_plan (hp : p ∈ fullPlans symbols d) {c : NamedValue} (hc : c ∈ p.members) :
    Folded symbols c := by
  by_cases origin : p.origin = .enumeration
  · have mem : p ∈ (fullPlans symbols d).filter fun p => p.origin = .enumeration :=
      List.mem_filter.mpr ⟨hp, decide_eq_true origin⟩
    rw [fullPlans_enumeration] at mem
    obtain ⟨e, -, rfl⟩ := List.mem_map.mp mem
    exact (mem_enumConstants.mp hc).2
  · exact (mem_macroConstants.mp (mem_macroConstants_of_plan hp origin hc)).2

theorem declares {tables : List LookupTable}
    (h : List.Forall₂ (Made o) (fullPlans symbols d) tables) : Declares symbols d tables := by
  constructor
  case folded =>
    intro t ht x hx
    obtain ⟨p, hp, made⟩ := exists_left h ht
    exact folded_of_plan hp (made.member hx)
  case macros =>
    intro t ht origin x hx
    obtain ⟨p, hp, made⟩ := exists_left h ht
    have mem := mem_macroConstants_of_plan hp (made.origin_eq ▸ origin) (made.member hx)
    obtain ⟨⟨m, hm, name⟩, -⟩ := mem_macroConstants.mp mem
    obtain ⟨hm, body⟩ := List.mem_filter.mp hm
    exact ⟨m, hm, by simpa using body, name⟩
  case enums =>
    refine (made_enumeration h).imp fun e t made => ⟨?_, fun x hx => ?_⟩
    · obtain ⟨-, n, rfl⟩ := made
      exact ⟨n, rfl⟩
    · exact (mem_enumConstants.mp (made.member hx)).1

end Made

/-- The tables of every list of headers are valid: their names are distinct over all headers, and
each gives the constants of its own header distinct labels and values that its type holds. -/
theorem transpose_valid (o : TableOptions) (defines : List Define) (headers : List HeaderSource) :
    let symbols := (Fold.fold o.maxPasses (symbolTable defines headers)).1
    let result := (transpose o defines headers).headers
    ((result.flatMap (·.tables)).map fun t => upper t.name).Nodup ∧
      List.Forall₂ (fun h out => out.path = h.path ∧ (∀ t ∈ out.tables, t.Valid) ∧
        Declares symbols h.declarations out.tables) headers result := by
  intro symbols result
  refine ⟨(headersFrom_names [] headers).1, ?_⟩
  refine (headersFrom_made [] headers).imp fun h out each => ⟨each.1, fun t ht => ?_, ?_⟩
  · obtain ⟨p, -, made⟩ := exists_left each.2 ht
    exact made.valid
  · exact declares each.2

end ConstLookup
