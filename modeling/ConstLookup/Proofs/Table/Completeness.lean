import ConstLookup.Proofs.Symbol.FixedPoint
import ConstLookup.Proofs.Table.Validity

/-!
  No constant is lost (`transpose_complete`). A macro with an integer value goes into exactly one
  table of a stem or into one or more default tables, a member of an enum into the table of its
  enum, and the lookups of these tables answer its value with the label of an entry.

  The groups of a header and its residual macros are a partition of its macros, so the two
  possibilities exclude each other; splitting the residual macros loses none of them.
-/

namespace ConstLookup

open ConstLookup.Text Assemble

/-- The tables of one origin that a constant went into, each with its plan. -/
def went (plans : List Plan) (tables : List LookupTable) (origin : TableOrigin)
    (c : NamedValue) : List (Plan × LookupTable) :=
  (plans.zip tables).filter fun x => x.2.origin = origin ∧ c ∈ x.1.members

/-- The lookup answers the value of a constant with the label of an entry; and that label is the
one for unknown values only where a constant of that name is alone with its value. -/
structure Answers (p : Plan) (t : LookupTable) (c : NamedValue) : Prop where
  entry : ∃ x ∈ t.entries, x.representative.value = c.value ∧ t.labelOf c.value = x.label
  unknown : t.labelOf c.value = unknownLabel →
    p.members.filter (·.value = c.value) = [c] ∧ c.name = unknownLabel

/-- Every constant of a source is in a table. -/
structure Complete (symbols : SymbolTable) (d : Declarations) (tables : List LookupTable) :
    Prop where
  macros : ∀ m ∈ d.macros, m.body.isEmpty = false → ∀ v, Folded symbols ⟨m.name, v⟩ →
    let into := fun origin => went (fullPlans symbols d) tables origin ⟨m.name, v⟩
    ((into .stem).length = 1 ∧ into .remainder = [] ∨
      into .stem = [] ∧ into .remainder ≠ []) ∧
    ∀ x ∈ into .stem ++ into .remainder, Answers x.1 x.2 ⟨m.name, v⟩
  tabled : ∀ e ∈ d.enums, ∀ m ∈ e.members, ∀ v, Folded symbols ⟨m.name, v⟩ →
    e ∈ tabledEnums symbols d
  enums : List.Forall₂ (fun e t => t.ForEnum e ∧ ∀ m ∈ e.members, ∀ v,
      Folded symbols ⟨m.name, v⟩ → Answers (enumPlan symbols e) t ⟨m.name, v⟩)
    (tabledEnums symbols d) (tables.filter fun t => t.origin = .enumeration)

section Lookup

variable {o : TableOptions} {p : Plan} {t : LookupTable}

/-- A table has one entry for a value, so the lookup finds it. -/
theorem LookupTable.Valid.labelOf_eq (h : t.Valid) {x : Entry} (hx : x ∈ t.entries) :
    t.labelOf x.representative.value = x.label := by
  unfold LookupTable.labelOf
  split
  · next y found =>
    have value : y.representative.value = x.representative.value := by
      simpa using List.find?_some found
    rw [List.inj_on_of_nodup_map h.values (List.mem_of_find?_eq_some found) hx value]
  · next none => exact absurd (List.find?_eq_none.mp none x hx) (by simp)

theorem Assemble.Made.answers (h : Made o p t) {c : NamedValue} (hc : c ∈ p.members) :
    Answers p t c := by
  have valid := h.valid
  obtain ⟨-, n, rfl⟩ := h
  obtain ⟨x, hx, value⟩ := exists_entry_iff.mpr ⟨c, hc, rfl⟩
  have label := valid.labelOf_eq hx
  rw [value] at label
  refine ⟨⟨x, hx, value, label⟩, fun unknown => ?_⟩
  obtain ⟨only, alone, name⟩ := label_eq_unknown hx (label.symm.trans unknown)
  rw [value] at alone
  have same : c = only := by
    have mem : c ∈ p.members.filter (·.value = c.value) :=
      List.mem_filter.mpr ⟨hc, decide_eq_true rfl⟩
    rw [alone] at mem
    exact List.mem_singleton.mp mem
  exact ⟨same ▸ alone, same ▸ name⟩

end Lookup

/-! ## Where a constant goes -/

theorem length_went {o : TableOptions} {ps : List Plan} {tables : List LookupTable}
    (h : List.Forall₂ (Made o) ps tables) (origin : TableOrigin) (c : NamedValue) :
    (went ps tables origin c).length = ps.countP fun p => p.origin = origin ∧ c ∈ p.members := by
  induction h with
  | nil => rfl
  | @cons p t ps tables made rest ih =>
    have same := made.origin_eq
    unfold went at ih ⊢
    rw [List.zip_cons_cons, List.countP_cons, List.filter_cons]
    dsimp only
    rw [same]
    split
    · rw [List.length_cons, ih]
    · rw [ih, Nat.add_zero]

/-- In a list without repetition made of several parts, an element is in one part only. -/
theorem countP_mem_eq_one {α β : Type} [DecidableEq β] {parts : List α} {f : α → List β} {c : β}
    (nodup : (parts.flatMap f).Nodup) (hc : c ∈ parts.flatMap f) :
    parts.countP (fun a => decide (c ∈ f a)) = 1 := by
  induction parts with
  | nil => cases hc
  | cons a as ih =>
    rw [List.flatMap_cons] at nodup hc
    obtain ⟨-, later, apart⟩ := List.nodup_append.mp nodup
    by_cases own : c ∈ f a
    · have others : as.countP (fun b => decide (c ∈ f b)) = 0 := by
        refine List.countP_eq_zero.mpr fun b hb mem => ?_
        exact apart c own c (List.mem_flatMap.mpr ⟨b, hb, by simpa using mem⟩) rfl
      rw [List.countP_cons, others, if_pos (decide_eq_true own)]
    · have there := (List.mem_append.mp hc).resolve_left own
      rw [List.countP_cons, ih later there, if_neg (by simpa using own)]

section Partition

variable {symbols : SymbolTable} {d : Declarations} {c : NamedValue}

/-- A plan that lists a constant has members. -/
theorem countP_fullPlans (origin : TableOrigin) :
    (fullPlans symbols d).countP (fun p => p.origin = origin ∧ c ∈ p.members) =
      (plans symbols d).countP fun p => p.origin = origin ∧ c ∈ p.members := by
  rw [fullPlans, List.countP_filter]
  refine List.countP_congr fun p _ => ?_
  simp only [Bool.and_eq_true, decide_eq_true_eq, Bool.not_eq_true', List.isEmpty_eq_false_iff]
  exact ⟨And.left, fun h => ⟨h, List.ne_nil_of_mem h.2⟩⟩

theorem countP_mapIdx {α β : Type} (p : β → Bool) (q : α → Bool) {f : Nat → α → β}
    (h : ∀ i a, p (f i a) = q a) (l : List α) : (l.mapIdx f).countP p = l.countP q := by
  induction l generalizing f with
  | nil => rfl
  | cons a as ih =>
    rw [List.mapIdx_cons, List.countP_cons, List.countP_cons, h,
      ih fun i b => h (i + 1) b]

theorem countP_stem :
    (fullPlans symbols d).countP (fun p => p.origin = .stem ∧ c ∈ p.members) =
      (stemGroups symbols d).countP fun g => decide (c ∈ g.2) := by
  rw [countP_fullPlans, plans_eq, List.countP_append, List.countP_append, List.countP_map,
    List.countP_map, countP_mapIdx _ (fun _ => false) fun _ _ => by simp]
  simp [Function.comp_def]

theorem countP_remainder :
    (fullPlans symbols d).countP (fun p => p.origin = .remainder ∧ c ∈ p.members) =
      (defaultSubsets symbols d).countP fun s => decide (c ∈ s) := by
  rw [countP_fullPlans, plans_eq, List.countP_append, List.countP_append, List.countP_map,
    List.countP_map, countP_mapIdx _ (fun s => decide (c ∈ s)) fun _ _ => by simp]
  simp [Function.comp_def]

/-- A macro is in one group, or in some default subset, but not in both. -/
theorem macro_partition (hc : c ∈ macroConstants symbols d) :
    ((stemGroups symbols d).countP (fun g => decide (c ∈ g.2)) = 1 ∧
        (defaultSubsets symbols d).countP (fun s => decide (c ∈ s)) = 0) ∨
      ((stemGroups symbols d).countP (fun g => decide (c ∈ g.2)) = 0 ∧
        0 < (defaultSubsets symbols d).countP fun s => decide (c ∈ s)) := by
  have all := groupByStem_perm (macroConstants symbols d)
  rw [← mergeGroups_members] at all
  have nodup := all.nodup_iff.mpr (nodup_macroConstants symbols d)
  obtain ⟨groups, residual, apart⟩ := List.nodup_append.mp nodup
  have split := splitDefault_covers (groupByStem (macroConstants symbols d)).2
  rcases List.mem_append.mp (all.mem_iff.mpr hc) with grouped | left
  · refine .inl ⟨countP_mem_eq_one groups grouped, List.countP_eq_zero.mpr fun s hs mem => ?_⟩
    exact apart c grouped c (split.sound s hs c (by simpa using mem)) rfl
  · refine .inr ⟨List.countP_eq_zero.mpr fun g hg mem => ?_, List.countP_pos_iff.mpr ?_⟩
    · exact apart c (List.mem_flatMap.mpr ⟨g, hg, by simpa using mem⟩) c left rfl
    · obtain ⟨s, hs, mem⟩ := split.complete c left
      exact ⟨s, hs, decide_eq_true mem⟩

end Partition

/-! ## The tables of a header -/

section Header

variable {o : TableOptions} {symbols : SymbolTable} {d : Declarations}
  {tables : List LookupTable}

theorem answers_of_went (h : List.Forall₂ (Made o) (fullPlans symbols d) tables)
    {origin : TableOrigin} {c : NamedValue} {x : Plan × LookupTable}
    (hx : x ∈ went (fullPlans symbols d) tables origin c) : Answers x.1 x.2 c := by
  obtain ⟨pair, into⟩ := List.mem_filter.mp hx
  have made : Made o x.1 x.2 := List.forall₂_zip h pair
  exact made.answers (of_decide_eq_true into).2

theorem complete (h : List.Forall₂ (Made o) (fullPlans symbols d) tables) :
    Complete symbols d tables := by
  constructor
  case macros =>
    intro m hm body v folded into
    have hc : (⟨m.name, v⟩ : NamedValue) ∈ macroConstants symbols d :=
      mem_macroConstants.mpr ⟨⟨m, List.mem_filter.mpr ⟨hm, by simp [body]⟩, rfl⟩, folded⟩
    have stems : (into .stem).length = _ := (length_went h .stem _).trans countP_stem
    have rest : (into .remainder).length = _ := (length_went h .remainder _).trans countP_remainder
    refine ⟨?_, fun x hx => ?_⟩
    · rcases macro_partition hc with ⟨one, none⟩ | ⟨none, some⟩
      · rw [one] at stems
        rw [none] at rest
        exact .inl ⟨stems, List.eq_nil_of_length_eq_zero rest⟩
      · rw [none] at stems
        rw [← rest] at some
        exact .inr ⟨List.eq_nil_of_length_eq_zero stems, List.ne_nil_of_length_pos some⟩
    · rcases List.mem_append.mp hx with hx | hx
      · exact answers_of_went h hx
      · exact answers_of_went h hx
  case tabled =>
    intro e he m hm v folded
    have hc : (⟨m.name, v⟩ : NamedValue) ∈ enumConstants symbols e :=
      mem_enumConstants.mpr ⟨⟨m, hm, rfl⟩, folded⟩
    refine List.mem_filter.mpr ⟨he, ?_⟩
    simpa using List.ne_nil_of_mem hc
  case enums =>
    refine List.Forall₂.mp (fun e t made named => ⟨named, fun m hm v folded => ?_⟩)
      (made_enumeration h) (declares h).enums
    exact made.answers (mem_enumConstants.mpr ⟨⟨m, hm, rfl⟩, folded⟩)

end Header

/-- No constant of any header is lost: a macro with an integer value is in exactly one table of a
stem or in some default tables, a member of an enum in the table of its enum, and the lookup of
such a table never falls through for the value of the constant. -/
theorem transpose_complete (o : TableOptions) (defines : List Define)
    (headers : List HeaderSource) :
    let symbols := (Fold.fold o.maxPasses (symbolTable defines headers)).1
    List.Forall₂ (fun h out => out.path = h.path ∧
        List.Forall₂ (Made o) (fullPlans symbols h.declarations) out.tables ∧
        Complete symbols h.declarations out.tables)
      headers (transpose o defines headers).headers := by
  intro symbols
  exact (headersFrom_made [] headers).imp fun h out each => ⟨each.1, each.2, complete each.2⟩

/-- A macro that is named like the label for unknown values. -/
def unknownMacro : MacroDecl := ⟨"Unknown", "5", ⟨"unknown.h", 1, 1⟩⟩

/-- A source with this macro alone. -/
def unknownSource : HeaderSource :=
  { path := "unknown.h", declarations := { macros := [unknownMacro] } }

/-- The lookup answers the value of a constant of that name with the label for unknown values. -/
theorem labelOf_unknown :
    let symbols := (Fold.fold 1024 (symbolTable [] [unknownSource])).1
    Folded symbols ⟨unknownMacro.name, 5⟩ ∧
      ∃ t, (transpose {} [] [unknownSource]).headers = [⟨"unknown.h", [t]⟩] ∧
        (∃ x ∈ t.entries, x.representative = ⟨unknownMacro.name, 5⟩) ∧
        t.labelOf 5 = "Unknown" := by
  intro symbols
  have folded : Folded symbols ⟨"Unknown", 5⟩ := by
    let t := SymbolTable.empty.insert (macroSymbol unknownMacro)
    have size : t.size < 1024 :=
      Nat.lt_of_le_of_lt (SymbolTable.empty.size_insert_le _) (by decide)
    have mem := SymbolTable.mem_single (macroSymbol unknownMacro)
    have five (known : Resolver) : evaluate known "5" = .ok (some (.int 5)) := by
      have marked : HexShield.shield "5" = "5" := by
        simp [HexShield.shield, HexShield.shieldFrom]
      rw [evaluate, marked]
      rfl
    have pending : (⟨"Unknown", "5", some unknownMacro.location⟩ : Fold.Pending) ∈
        Fold.pending t :=
      Fold.mem_pending.mpr ⟨_, mem, rfl, rfl, rfl⟩
    exact ((Fold.fold_symbol size pending).1 (.int 5)).mpr (five _)
  have constants : macroConstants symbols unknownSource.declarations = [⟨"Unknown", 5⟩] := by
    have found : constant? symbols "Unknown" = some ⟨"Unknown", 5⟩ :=
      constant?_eq_some.mpr ⟨rfl, folded⟩
    show ["Unknown"].filterMap (constant? symbols) = _
    rw [List.filterMap_cons_some found, List.filterMap_nil]
  have plans : plans symbols unknownSource.declarations =
      [⟨"_DEFAULT", .remainder, [⟨"Unknown", 5⟩]⟩] := by
    rw [Assemble.plans, constants, groupByStem_singleton]
    rfl
  refine ⟨folded, tableNamed {} "_DEFAULT" ⟨"_DEFAULT", .remainder, [⟨"Unknown", 5⟩]⟩, ?_,
    ⟨⟨"Unknown", ⟨"Unknown", 5⟩⟩, List.mem_cons_self, rfl⟩, rfl⟩
  show headersFrom {} symbols [] [unknownSource] = _
  rw [headersFrom, plans]
  rfl

end ConstLookup
