import ConstLookup.Proofs.Expr.Literal
import ConstLookup.Proofs.Source.Trace
import ConstLookup.Proofs.Symbol.FixedPoint
import ConstLookup.Proofs.Table.Validity

/-!
  Which macros named by the tables still exist when all headers are read
  (`representative_isDefined_iff`). Every entry of a table of macros is named for a macro that
  was defined, since only recorded macros go into tables. Recording is for good, so a macro that
  was removed afterwards is in a table as well (`representative_removed`): what decides is
  whether the name was defined again after its last removal.
-/

namespace ConstLookup

open Assemble Source

/-! ## A macro alone -/

section Lone

variable {path : String} {d : Declarations} {m : MacroDecl} {v : Int}

/-- The one symbol is folded in the first pass. -/
theorem folded_lone (enums : d.enums = []) (lone : valuedMacros d = [m])
    (value : ∀ known, evaluate known m.body = .ok (some (.int v))) :
    Folded (Fold.fold 1024 (symbolTable [] [⟨path, d⟩])).1 ⟨m.name, v⟩ := by
  have symbol : symbolTable [] [⟨path, d⟩] = SymbolTable.empty.insert (macroSymbol m) := by
    simp [symbolTable, symbolsOf, lone, enums]
  have size : (SymbolTable.empty.insert (macroSymbol m)).size < 1024 :=
    Nat.lt_of_le_of_lt (SymbolTable.empty.size_insert_le _) (by decide)
  have pending : (⟨m.name, m.body, some m.location⟩ : Fold.Pending) ∈
      Fold.pending (SymbolTable.empty.insert (macroSymbol m)) :=
    Fold.mem_pending.mpr ⟨_, SymbolTable.mem_single (macroSymbol m), rfl, rfl, rfl⟩
  rw [symbol]
  exact ((Fold.fold_symbol size pending).1 (.int v)).mpr (value _)

theorem plans_lone {symbols : SymbolTable} (enums : d.enums = []) (lone : valuedMacros d = [m])
    (folded : Folded symbols ⟨m.name, v⟩) :
    plans symbols d = [⟨"_DEFAULT", .remainder, [⟨m.name, v⟩]⟩] := by
  have found : constant? symbols m.name = some ⟨m.name, v⟩ := constant?_eq_some.mpr ⟨rfl, folded⟩
  have constants : macroConstants symbols d = [⟨m.name, v⟩] := by
    rw [macroConstants, lone]
    exact List.filterMap_cons_some found
  rw [plans, constants, groupByStem_singleton, enums]
  rfl

/-- A header with one valued macro alone gets one default table with this macro. -/
theorem transpose_lone (enums : d.enums = []) (lone : valuedMacros d = [m])
    (value : ∀ known, evaluate known m.body = .ok (some (.int v))) :
    (transpose {} [] [⟨path, d⟩]).headers =
      [⟨path, [tableNamed {} "_DEFAULT" ⟨"_DEFAULT", .remainder, [⟨m.name, v⟩]⟩]⟩] := by
  have name : uniqueName [] (Text.upper "_DEFAULT") = "_DEFAULT" := by decide +kernel
  show headersFrom {} (Fold.fold 1024 (symbolTable [] [⟨path, d⟩])).1 [] [⟨path, d⟩] = _
  rw [headersFrom, plans_lone enums lone (folded_lone enums lone value)]
  simp [tablesFrom, name, headersFrom]

/-- This table has an entry for the macro. -/
theorem exists_entry_lone (enums : d.enums = []) (lone : valuedMacros d = [m])
    (value : ∀ known, evaluate known m.body = .ok (some (.int v))) :
    ∃ h ∈ (transpose {} [] [⟨path, d⟩]).headers, ∃ t ∈ h.tables, t.origin ≠ .enumeration ∧
      ∃ x ∈ t.entries, x.representative.name = m.name := by
  have origin : TableOrigin.remainder ≠ .enumeration := by decide
  rw [transpose_lone enums lone value]
  refine ⟨_, List.mem_singleton_self _, _, List.mem_singleton_self _, origin, ?_⟩
  obtain ⟨x, hx, -⟩ := exists_entry_iff.mpr ⟨⟨m.name, v⟩, List.mem_singleton_self _, rfl⟩
  have member := List.mem_singleton.mp ((mergeCollisions_spec _).members_mem x hx)
  exact ⟨x, hx, congrArg NamedValue.name member⟩

end Lone

/-! ## Macros named by tables -/

/-- The entries of a table of macros are named for macros of one of the sources. -/
theorem exists_macro_of_entry {o : TableOptions} {defines : List Define}
    {sources : List HeaderSource} {h : HeaderTables}
    (hh : h ∈ (transpose o defines sources).headers) {t : LookupTable} (ht : t ∈ h.tables)
    (origin : t.origin ≠ .enumeration) {x : Entry} (hx : x ∈ t.entries) :
    ∃ s ∈ sources, ∃ m ∈ s.declarations.macros, m.name = x.representative.name := by
  obtain ⟨s, hs, -, made⟩ := exists_left (headersFrom_made [] sources) hh
  obtain ⟨m, hm, -, name⟩ := (declares made).macros t ht origin x hx
  exact ⟨s, hs, m, hm, name⟩

/-- Every entry of a table of macros is named for a macro whose definition was read, and this
macro is defined after the last header exactly if no removal of it was read after its last
definition. -/
theorem representative_isDefined_iff (o : TableOptions) (defines : List Define)
    (env : Environment) (headers : List HeaderText) :
    let read := HeaderText.partsRead env headers
    let sources := (HeaderText.declarations env headers).1
    let final := (HeaderText.declarations env headers).2
    ∀ h ∈ (transpose o defines sources).headers, ∀ t ∈ h.tables, t.origin ≠ .enumeration →
      ∀ x ∈ t.entries,
        (∃ body position, .definition x.representative.name body position ∈ read) ∧
        (final.isDefined x.representative.name = true ↔ ¬ Removed x.representative.name read) := by
  intro read sources final h hh t ht origin x hx
  obtain ⟨s, hs, m, hm, name⟩ := exists_macro_of_entry hh ht origin hx
  rw [← name]
  exact ⟨HeaderText.definition_mem_partsRead hs hm, HeaderText.isDefined_iff_not_removed hs hm⟩

/-- A header that defines a macro, removes it and defines it with a value. -/
def restoringHeader : HeaderText := ⟨"redef.h", "#define A\n#undef A\n#define A 1\n"⟩

/-- Both definitions are recorded. -/
def restored : Declarations :=
  { macros := [⟨"A", "", ⟨"redef.h", 1, 0⟩⟩, ⟨"A", "1", ⟨"redef.h", 3, 0⟩⟩] }

theorem declarations_restoring :
    HeaderText.declarations [] [restoringHeader] = ([⟨"redef.h", restored⟩], [("A", "1")]) := by
  have declared : Source.declarations [] restoringHeader.path restoringHeader.text =
      (restored, [("A", "1")]) := by decide +kernel
  rw [HeaderText.declarations, declared]
  rfl

/-- The macro that has its table from the second definition exists in the end, so nothing removed
it after that. -/
theorem representative_restored :
    let sources := (HeaderText.declarations [] [restoringHeader]).1
    let final := (HeaderText.declarations [] [restoringHeader]).2
    (∃ h ∈ (transpose {} [] sources).headers, ∃ t ∈ h.tables, t.origin ≠ .enumeration ∧
        ∃ x ∈ t.entries, x.representative.name = "A") ∧
      final.isDefined "A" = true ∧
      ¬ Removed "A" (HeaderText.partsRead [] [restoringHeader]) := by
  intro sources final
  have listed : sources = [⟨"redef.h", restored⟩] := congrArg Prod.fst declarations_restoring
  have defined : final.isDefined "A" = true := by
    rw [show final = _ from congrArg Prod.snd declarations_restoring]
    rfl
  have entry : ∃ h ∈ (transpose {} [] sources).headers, ∃ t ∈ h.tables, t.origin ≠ .enumeration ∧
      ∃ x ∈ t.entries, x.representative.name = "A" := by
    rw [listed]
    exact exists_entry_lone (m := ⟨"A", "1", ⟨"redef.h", 3, 0⟩⟩) rfl rfl fun _ =>
      evaluate_decimal _ 1 (by decide)
  refine ⟨entry, defined, ?_⟩
  obtain ⟨h, hh, t, ht, origin, x, hx, name⟩ := entry
  have exact' := (representative_isDefined_iff {} [] [] [restoringHeader] h hh t ht origin x hx).2
  rw [name] at exact'
  exact exact'.mp defined

/-- A header that removes its only macro. -/
def removingHeader : HeaderText := ⟨"undef.h", "#define A 1\n#undef A\n"⟩

/-- A table names a macro that was removed for good. -/
theorem representative_removed :
    let sources := (HeaderText.declarations [] [removingHeader]).1
    let final := (HeaderText.declarations [] [removingHeader]).2
    ∃ h ∈ (transpose {} [] sources).headers, ∃ t ∈ h.tables, t.origin ≠ .enumeration ∧
      ∃ x ∈ t.entries, final.isDefined x.representative.name = false := by
  have declared : Source.declarations [] removingHeader.path removingHeader.text =
      ({ macros := [⟨"A", "1", ⟨"undef.h", 1, 0⟩⟩] }, []) := by decide +kernel
  have read : HeaderText.declarations [] [removingHeader] =
      ([⟨"undef.h", { macros := [⟨"A", "1", ⟨"undef.h", 1, 0⟩⟩] }⟩], []) := by
    rw [HeaderText.declarations, declared]
    rfl
  rw [read]
  obtain ⟨h, hh, t, ht, origin, x, hx, -⟩ :=
    exists_entry_lone (d := { macros := [⟨"A", "1", ⟨"undef.h", 1, 0⟩⟩] })
      (m := ⟨"A", "1", ⟨"undef.h", 1, 0⟩⟩) rfl rfl fun _ => evaluate_decimal _ 1 (by decide)
  exact ⟨h, hh, t, ht, origin, x, hx, rfl⟩

end ConstLookup
