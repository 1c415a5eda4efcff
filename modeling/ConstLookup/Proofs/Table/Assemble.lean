import ConstLookup.Proofs.Table.Collision
import ConstLookup.Proofs.Table.DefaultSplit
import ConstLookup.Proofs.Table.StemGroup
import ConstLookup.Table.Assemble
import Mathlib.Data.List.Forall2

/-!
  Which table is made from what. The tables of a header are made one by one from the plans of
  its declarations that have members (`tablesFrom_spec`), under names that no table had before,
  in this header or in one before it (`headersFrom_names`). What a plan lists is a macro or an
  enum member of that very source, with the integer that the symbol table holds for it.
-/

namespace ConstLookup.Assemble

open ConstLookup.Text

variable {o : TableOptions} {symbols : SymbolTable} {d : Declarations}

/-! ## Constants of a source -/

/-- The symbol table holds an integer for the constant. -/
def Folded (symbols : SymbolTable) (c : NamedValue) : Prop :=
  symbols.value? c.name = some (.number (.int c.value))

theorem constant?_eq_some {name : String} {c : NamedValue} :
    constant? symbols name = some c ↔ c.name = name ∧ Folded symbols c := by
  unfold constant? Folded
  constructor
  · intro h
    obtain ⟨v, hv, rfl⟩ := Option.map_eq_some_iff.mp h
    obtain ⟨value, found, int⟩ := Option.bind_eq_some_iff.mp hv
    refine ⟨rfl, found.trans (congrArg some ?_)⟩
    match value, int with
    | .number (.int w), int => rw [Option.some.inj int]
  · rintro ⟨rfl, found⟩
    rw [found]
    rfl

theorem mem_firstByName_of {ms : List MacroDecl} {m : MacroDecl} (h : m ∈ firstByName ms) :
    m ∈ ms := by
  induction ms with
  | nil => cases h
  | cons n ns ih =>
    rcases List.mem_cons.mp h with rfl | h
    · exact List.mem_cons_self
    · exact List.mem_cons_of_mem n (ih (List.mem_filter.mp h).1)

/-- Each name has its first macro. -/
theorem exists_mem_firstByName {ms : List MacroDecl} {m : MacroDecl} (h : m ∈ ms) :
    ∃ n ∈ firstByName ms, n.name = m.name := by
  induction ms with
  | nil => cases h
  | cons n ns ih =>
    by_cases same : m.name = n.name
    · exact ⟨n, List.mem_cons_self, same.symm⟩
    · rcases List.mem_cons.mp h with rfl | h
      · exact absurd rfl same
      · obtain ⟨first, mem, name⟩ := ih h
        refine ⟨first, List.mem_cons_of_mem n (List.mem_filter.mpr ⟨mem, ?_⟩), name⟩
        simpa [name] using same

theorem nodup_firstByName (ms : List MacroDecl) :
    ((firstByName ms).map MacroDecl.name).Nodup := by
  induction ms with
  | nil => exact List.nodup_nil
  | cons m ms ih =>
    refine List.nodup_cons.mpr ⟨?_, (List.filter_sublist.map _).nodup ih⟩
    simp

theorem mem_macroConstants {c : NamedValue} :
    c ∈ macroConstants symbols d ↔ (∃ m ∈ valuedMacros d, m.name = c.name) ∧ Folded symbols c := by
  rw [macroConstants, List.mem_filterMap]
  constructor
  · rintro ⟨m, hm, h⟩
    obtain ⟨name, folded⟩ := constant?_eq_some.mp h
    exact ⟨⟨m, mem_firstByName_of hm, name.symm⟩, folded⟩
  · rintro ⟨⟨m, hm, name⟩, folded⟩
    obtain ⟨first, mem, same⟩ := exists_mem_firstByName hm
    exact ⟨first, mem, constant?_eq_some.mpr ⟨(same.trans name).symm, folded⟩⟩

theorem nodup_macroConstants (symbols : SymbolTable) (d : Declarations) :
    (macroConstants symbols d).Nodup := by
  have names : ((macroConstants symbols d).map NamedValue.name).Sublist
      ((firstByName (valuedMacros d)).map MacroDecl.name) := by
    unfold macroConstants
    induction firstByName (valuedMacros d) with
    | nil => exact .slnil
    | cons m ms ih =>
      cases h : constant? symbols m.name with
      | none => simpa [List.filterMap_cons, h] using ih.cons m.name
      | some c =>
        have name := (constant?_eq_some.mp h).1
        simpa [List.filterMap_cons, h, name] using ih
  exact (names.nodup (nodup_firstByName _)).of_map

theorem mem_enumConstants {e : EnumDecl} {c : NamedValue} :
    c ∈ enumConstants symbols e ↔ (∃ m ∈ e.members, m.name = c.name) ∧ Folded symbols c := by
  rw [enumConstants, List.mem_filterMap]
  constructor
  · rintro ⟨m, hm, h⟩
    obtain ⟨name, folded⟩ := constant?_eq_some.mp h
    exact ⟨⟨m, hm, name.symm⟩, folded⟩
  · rintro ⟨⟨m, hm, name⟩, folded⟩
    exact ⟨m, hm, constant?_eq_some.mpr ⟨name.symm, folded⟩⟩

/-! ## Plans -/

/-- The plans of a source that give a table. -/
def fullPlans (symbols : SymbolTable) (d : Declarations) : List Plan :=
  (plans symbols d).filter fun p => !p.members.isEmpty

/-- The groups of the macros of a source. -/
def stemGroups (symbols : SymbolTable) (d : Declarations) : Groups :=
  mergeGroups (groupByStem (macroConstants symbols d)).1

/-- The subsets of the macros of a source without a stem. -/
def defaultSubsets (symbols : SymbolTable) (d : Declarations) : List (List NamedValue) :=
  splitDefault (groupByStem (macroConstants symbols d)).2

theorem plans_eq (symbols : SymbolTable) (d : Declarations) :
    plans symbols d =
      (d.enums.map fun e => ⟨e.name, .enumeration, enumConstants symbols e⟩) ++
        ((stemGroups symbols d).map (fun g => ⟨g.1, .stem, g.2⟩) ++
          (defaultSubsets symbols d).mapIdx fun i s =>
            ⟨defaultTableName i (defaultSubsets symbols d).length, .remainder, s⟩) :=
  List.append_assoc _ _ _

/-- The plan of an enum. -/
def enumPlan (symbols : SymbolTable) (e : EnumDecl) : Plan :=
  ⟨e.name, .enumeration, enumConstants symbols e⟩

/-- The enums of a source that get a table: those with an integer constant. -/
def tabledEnums (symbols : SymbolTable) (d : Declarations) : List EnumDecl :=
  d.enums.filter fun e => !(enumConstants symbols e).isEmpty

/-- The plans of enums are those of the enums with an integer constant, in turn. -/
theorem fullPlans_enumeration (symbols : SymbolTable) (d : Declarations) :
    ((fullPlans symbols d).filter fun p => p.origin = .enumeration) =
      (tabledEnums symbols d).map (enumPlan symbols) := by
  have stems : ((stemGroups symbols d).map fun g => (⟨g.1, .stem, g.2⟩ : Plan)).filter
      (fun p => decide (p.origin = .enumeration) && !p.members.isEmpty) = [] := by
    refine List.filter_eq_nil_iff.mpr fun p hp => ?_
    obtain ⟨g, -, rfl⟩ := List.mem_map.mp hp
    simp
  have rest : ((defaultSubsets symbols d).mapIdx fun i s =>
      (⟨defaultTableName i (defaultSubsets symbols d).length, .remainder, s⟩ : Plan)).filter
      (fun p => decide (p.origin = .enumeration) && !p.members.isEmpty) = [] := by
    refine List.filter_eq_nil_iff.mpr fun p hp => ?_
    obtain ⟨i, hi, rfl⟩ := List.mem_mapIdx.mp hp
    simp
  rw [fullPlans, List.filter_filter, plans_eq, List.filter_append, List.filter_append, stems, rest,
    List.append_nil, List.append_nil, List.filter_map]
  rfl

/-- What a plan for macros lists are macros. -/
theorem mem_macroConstants_of_plan {p : Plan} (hp : p ∈ fullPlans symbols d)
    (origin : p.origin ≠ .enumeration) {c : NamedValue} (hc : c ∈ p.members) :
    c ∈ macroConstants symbols d := by
  have all := groupByStem_perm (macroConstants symbols d)
  have hp := (List.mem_filter.mp hp).1
  rw [plans_eq] at hp
  rcases List.mem_append.mp hp with hp | hp
  · obtain ⟨e, -, rfl⟩ := List.mem_map.mp hp
    exact absurd rfl origin
  · rcases List.mem_append.mp hp with hp | hp
    · obtain ⟨g, hg, rfl⟩ := List.mem_map.mp hp
      refine all.mem_iff.mp (List.mem_append_left _ ?_)
      rw [← mergeGroups_members]
      exact List.mem_flatMap.mpr ⟨g, hg, hc⟩
    · obtain ⟨i, hi, rfl⟩ := List.mem_mapIdx.mp hp
      refine all.mem_iff.mp (List.mem_append_right _ ?_)
      exact (splitDefault_covers _).sound _ (List.getElem_mem hi) c hc

/-! ## Tables of a source -/

/-- The table is made from the members of the plan, under a choice for its name. -/
def Made (o : TableOptions) (p : Plan) (t : LookupTable) : Prop :=
  p.members ≠ [] ∧ ∃ n, t = tableNamed o (nameChoice (upper p.name) n) p

/-- What the tables for some plans are, and the used names after them. -/
structure TablesOf (o : TableOptions) (used : List String) (ps : List Plan)
    (tables : List LookupTable) (after : List String) : Prop where
  made : List.Forall₂ (Made o) (ps.filter fun p => !p.members.isEmpty) tables
  nodup : (tables.map fun t => upper t.name).Nodup
  unused : ∀ t ∈ tables, upper t.name ∉ used
  mem_after : ∀ name, name ∈ after ↔ name ∈ used ∨ ∃ t ∈ tables, upper t.name = name

theorem tablesFrom_made (o : TableOptions) (used : List String) (ps : List Plan) :
    List.Forall₂ (Made o) (ps.filter fun p => !p.members.isEmpty) (tablesFrom o used ps).1 := by
  induction ps generalizing used with
  | nil => exact .nil
  | cons p ps ih =>
    rw [tablesFrom]
    split
    next empty => simpa [empty] using ih used
    next full =>
      obtain ⟨n, choice⟩ := uniqueName_eq_choice used (upper p.name)
      rw [List.filter_cons_of_pos (by simp [full])]
      exact .cons ⟨by simpa using full, n, by rw [choice]⟩ (ih _)

/-- The names of the tables are chosen in turn. -/
theorem map_name_tablesFrom (o : TableOptions) (used : List String) (ps : List Plan) :
    (tablesFrom o used ps).1.map (·.name) =
      uniqueNames used ((ps.filter fun p => !p.members.isEmpty).map fun p => upper p.name) := by
  induction ps generalizing used with
  | nil => rfl
  | cons p ps ih =>
    rw [tablesFrom]
    split
    next empty => simpa [empty] using ih used
    next full =>
      rw [List.filter_cons_of_pos (by simp [full])]
      exact congrArg _ (ih _)

theorem used_tablesFrom (o : TableOptions) (used : List String) (ps : List Plan) :
    (tablesFrom o used ps).2 = ((tablesFrom o used ps).1.map (·.name)).foldl markUsed used := by
  induction ps generalizing used with
  | nil => rfl
  | cons p ps ih =>
    rw [tablesFrom]
    split
    next => exact ih used
    next => exact ih _

theorem tablesFrom_spec (o : TableOptions) (used : List String) (ps : List Plan) :
    TablesOf o used ps (tablesFrom o used ps).1 (tablesFrom o used ps).2 := by
  obtain ⟨nodup, unused⟩ := uniqueNames_distinct used
    ((ps.filter fun p => !p.members.isEmpty).map fun p => upper p.name)
  rw [← map_name_tablesFrom o, List.map_map] at nodup
  rw [← map_name_tablesFrom o] at unused
  refine ⟨tablesFrom_made o used ps, nodup, fun t ht => unused t.name (List.mem_map_of_mem ht),
    fun name => ?_⟩
  rw [used_tablesFrom, mem_foldl_markUsed, List.map_map, List.mem_map]
  rfl

/-- What stands on the right of a relation between lists has a partner on the left. -/
theorem exists_left {α β : Type} {R : α → β → Prop} {as : List α} {bs : List β}
    (h : List.Forall₂ R as bs) {b : β} (hb : b ∈ bs) : ∃ a ∈ as, R a b := by
  induction h with
  | nil => cases hb
  | @cons a b' as bs head tail ih =>
    rcases List.mem_cons.mp hb with rfl | hb
    · exact ⟨a, List.mem_cons_self, head⟩
    · obtain ⟨a', ha', related⟩ := ih hb
      exact ⟨a', List.mem_cons_of_mem a ha', related⟩

/-- The tables of enums are made for the enums with an integer constant, in turn. -/
theorem made_enumeration {tables : List LookupTable}
    (h : List.Forall₂ (Made o) (fullPlans symbols d) tables) :
    List.Forall₂ (fun e t => Made o (enumPlan symbols e) t) (tabledEnums symbols d)
      (tables.filter fun t => t.origin = .enumeration) := by
  have same : (Relator.LiftFun (Made o) (· ↔ ·)) (fun p => (decide (p.origin = .enumeration)) = true)
      (fun t => (decide (t.origin = .enumeration)) = true) := by
    rintro p t ⟨-, n, rfl⟩
    rfl
  have kept := List.rel_filter same h
  rw [fullPlans_enumeration] at kept
  exact List.forall₂_map_left_iff.mp kept

/-! ## Tables of all headers -/

theorem headersFrom_made (used : List String) (hs : List HeaderSource) :
    List.Forall₂ (fun h out => out.path = h.path ∧
      List.Forall₂ (Made o) (fullPlans symbols h.declarations) out.tables) hs
      (headersFrom o symbols used hs) := by
  induction hs generalizing used with
  | nil => exact .nil
  | cons h hs ih => exact .cons ⟨rfl, (tablesFrom_spec o used _).made⟩ (ih _)

/-- No two tables have the same name, and none has a name that was used before. -/
theorem headersFrom_names (used : List String) (hs : List HeaderSource) :
    (((headersFrom o symbols used hs).flatMap (·.tables)).map fun t => upper t.name).Nodup ∧
      ∀ t ∈ (headersFrom o symbols used hs).flatMap (·.tables), upper t.name ∉ used := by
  induction hs generalizing used with
  | nil => exact ⟨List.nodup_nil, nofun⟩
  | cons h hs ih =>
    have own := tablesFrom_spec o used (plans symbols h.declarations)
    obtain ⟨nodup, unused⟩ := ih (tablesFrom o used (plans symbols h.declarations)).2
    rw [headersFrom, List.flatMap_cons, List.map_append]
    refine ⟨List.nodup_append.mpr ⟨own.nodup, nodup, ?_⟩, fun t ht => ?_⟩
    · rintro a ha b hb rfl
      obtain ⟨t, ht, name⟩ := List.mem_map.mp ha
      obtain ⟨t', ht', name'⟩ := List.mem_map.mp hb
      exact unused t' ht' ((own.mem_after _).mpr (.inr ⟨t, ht, name.trans name'.symm⟩))
    · rcases List.mem_append.mp ht with ht | ht
      · exact own.unused t ht
      · exact fun mem => unused t ht ((own.mem_after _).mpr (.inl mem))

end ConstLookup.Assemble
