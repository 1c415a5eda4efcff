import ConstLookup.Proofs.Emit.Defined
import ConstLookup.Proofs.Symbol.FixedPoint
import ConstLookup.Proofs.Table.Validity

/-!
  When the names of a generated header are distinct (`definedIn_nodup_iff`). The names of tables
  are distinct in upper case, so all names are distinct but for two cases: a table is named like
  a flag writer of another one (`definedIn_duplicate`), or two parsers that are functions have
  stems that differ in upper case alone.
-/

namespace ConstLookup.Emit

open ConstLookup.Text Assemble

/-! ## The names of stems -/

/-- Texts that end in different characters are different. -/
theorem append_ne {a b s s' : String} (h : s.toList.getLast? ≠ s'.toList.getLast?)
    (hs : s ≠ "") (hs' : s' ≠ "") : a ++ s ≠ b ++ s' := fun same => by
  have last := congrArg (fun x : String => x.toList.getLast?) same
  simp only [String.toList_append] at last
  rw [List.getLast?_append_of_ne_nil _ (by simpa using hs),
    List.getLast?_append_of_ne_nil _ (by simpa using hs')] at last
  exact h last

/-- Two stems have no name in common. -/
def Stem.Apart (a b : Stem) : Prop :=
  a.upper ≠ b.upper ∧ (a.inline = true → b.inline = true → a.lower ≠ b.lower)

theorem Stem.disjoint_iff (a b : Stem) : List.Disjoint a.names b.names ↔ a.Apart b := by
  have macroSize (x y : String) : x ++ "_MAX_LEN" ≠ y ++ "_PARSER" :=
    append_ne (by decide) (by decide) (by decide)
  have functionSize (x y : String) : x ++ "_MAX_LEN" ≠ y ++ "_parser" :=
    append_ne (by decide) (by decide) (by decide)
  have parsers (x y : String) : x ++ "_PARSER" ≠ y ++ "_parser" :=
    append_ne (by decide) (by decide) (by decide)
  rw [names, names, Apart]
  cases a.inline <;> cases b.inline <;>
    simp [macroSize, functionSize, parsers, (macroSize _ _).symm, (functionSize _ _).symm,
      (parsers _ _).symm, eq_comm (a := b.upper), eq_comm (a := b.lower)]

theorem Stem.nodup_names (s : Stem) : s.names.Nodup := by
  have macroSize : s.upper ++ "_MAX_LEN" ≠ s.upper ++ "_PARSER" :=
    append_ne (by decide) (by decide) (by decide)
  have functionSize : s.upper ++ "_MAX_LEN" ≠ s.lower ++ "_parser" :=
    append_ne (by decide) (by decide) (by decide)
  rw [names]
  cases s.inline <;> simp [macroSize, functionSize]

/-- The names of stems are distinct if their upper cases are, and the lower cases of those of
functions. -/
theorem nodup_names_iff (ss : List Stem) :
    (ss.flatMap Stem.names).Nodup ↔
      (ss.map (·.upper)).Nodup ∧ ((ss.filter (·.inline)).map (·.lower)).Nodup := by
  rw [List.nodup_flatMap]
  unfold List.Nodup
  rw [List.pairwise_map, List.pairwise_map, List.pairwise_filter, ← List.pairwise_and_iff]
  constructor
  · rintro ⟨-, apart⟩
    exact apart.imp fun h => (Stem.disjoint_iff _ _).mp h
  · exact fun apart => ⟨fun s _ => s.nodup_names, apart.imp fun h => (Stem.disjoint_iff _ _).mpr h⟩

/-! ## The names of tables -/

theorem flatMap_stems_perm (o : Options) {ts : List LookupTable} (h : ∀ t ∈ ts, t.entries ≠ []) :
    (ts.flatMap (stems o)).Perm
      (ts.map (valueStem o) ++ (ts.filter (·.isMask)).map (maskStem o)) := by
  induction ts with
  | nil => exact .nil
  | cons t ts ih =>
    have nonempty : t.entries.isEmpty = false := by simpa using h t List.mem_cons_self
    have rest := ih fun x hx => h x (List.mem_cons_of_mem _ hx)
    rw [List.flatMap_cons, stems, nonempty, List.filter_cons, List.map_cons]
    cases t.isMask with
    | false => simpa using rest
    | true =>
      refine List.Perm.cons _ ?_
      have front := (rest.cons (maskStem o t))
      exact front.trans List.perm_middle.symm

/-- Upper-case names of tables and of their flag writers. -/
theorem nodup_upper_iff (o : Options) {ts : List LookupTable} (h : ∀ t ∈ ts, t.entries ≠ [])
    (distinct : (ts.map fun t => upper t.name).Nodup) :
    ((ts.flatMap (stems o)).map (·.upper)).Nodup ↔
      ∀ s ∈ ts, s.isMask = true → ∀ t ∈ ts, upper t.name ≠ upper s.name ++ "_MASK" := by
  have masks : ((ts.filter (·.isMask)).map fun t => upper t.name ++ "_MASK").Nodup := by
    have kept : ((ts.filter (·.isMask)).map fun t => upper t.name).Nodup :=
      distinct.sublist (List.filter_sublist.map _)
    have suffixed := kept.map (f := fun name => name ++ "_MASK") fun a b same =>
      (String.append_left_inj _).mp same
    rwa [List.map_map] at suffixed
  rw [((flatMap_stems_perm o h).map _).nodup_iff, List.map_append, List.map_map, List.map_map,
    List.nodup_append]
  constructor
  · rintro ⟨-, -, apart⟩ s hs mask t ht
    exact apart _ (List.mem_map_of_mem ht) _
      (List.mem_map_of_mem (List.mem_filter.mpr ⟨hs, mask⟩))
  · intro apart
    refine ⟨distinct, masks, ?_⟩
    simp only [List.forall_mem_map]
    intro t ht s hs
    obtain ⟨mem, mask⟩ := List.mem_filter.mp hs
    exact apart s mem mask t ht

/-! ## The generated header of a transposition -/

variable {options : TableOptions} {defines : List Define} {headers : List HeaderSource}

/-- The names that a generated header defines are distinct if no table is named like the flag
writer of another one, and the stems of all parsers that are functions differ in lower case. -/
theorem definedIn_nodup_iff (o : Options) {input : String}
    (path : OneLine (o.includePath input)) (paths : ∀ h ∈ headers, OneLine h.path)
    (plain : ∀ h ∈ (transpose options defines headers).headers, ∀ t ∈ h.tables, Plain t) :
    let result := (transpose options defines headers).headers
    let tables := result.flatMap (·.tables)
    (definedIn (renderHeader o input result)).Nodup ↔
      (∀ s ∈ tables, s.isMask = true → ∀ t ∈ tables, upper t.name ≠ upper s.name ++ "_MASK") ∧
        (((tables.flatMap (stems o)).filter (·.inline)).map (·.lower)).Nodup := by
  intro result tables
  let symbols := (Fold.fold options.maxPasses (symbolTable defines headers)).1
  have made : List.Forall₂ _ headers (headersFrom options symbols [] headers) :=
    headersFrom_made [] headers
  have nonempty : ∀ t ∈ tables, t.entries ≠ [] := by
    intro t ht
    obtain ⟨out, hout, mem⟩ := List.mem_flatMap.mp ht
    obtain ⟨h, -, -, each⟩ := exists_left made hout
    obtain ⟨p, -, made⟩ := exists_left each mem
    exact made.valid.nonempty
  have outPaths : ∀ out ∈ result, OneLine out.path := by
    intro out hout
    obtain ⟨h, mem, path, -⟩ := exists_left made hout
    exact path ▸ paths h mem
  have distinct : (tables.map fun t => upper t.name).Nodup := (headersFrom_names [] headers).1
  have names : headerNames o result = (tables.flatMap (stems o)).flatMap Stem.names := by
    rw [List.flatMap_assoc]
    rfl
  rw [definedIn_renderHeader path outPaths plain, names, nodup_names_iff,
    nodup_upper_iff o nonempty distinct]

/-! ## A table that is named like a flag writer -/

/-- A member of the enum `FOO`. -/
def fooMember : MemberDecl := ⟨"A", "1", ⟨"flags.h", 1, 11⟩⟩

/-- A member of the enum `FOO_MASK`. -/
def fooMaskMember : MemberDecl := ⟨"B", "2", ⟨"flags.h", 2, 16⟩⟩

/-- A source with two enums, one of which is named like the flag writer of the other. -/
def flagsSource : HeaderSource where
  path := "flags.h"
  declarations := { enums := [⟨"FOO", [fooMember], ⟨"flags.h", 1, 0⟩⟩,
    ⟨"FOO_MASK", [fooMaskMember], ⟨"flags.h", 2, 0⟩⟩] }

/-- The tables of this source. -/
def flagsTables : List LookupTable :=
  [⟨"FOO", .enumeration, [⟨"A", ⟨"A", 1⟩⟩], some ⟨8, false⟩, true⟩,
    ⟨"FOO_MASK", .enumeration, [⟨"B", ⟨"B", 2⟩⟩], some ⟨8, false⟩, false⟩]

/-- The symbols of this source. -/
def flagsSymbols : SymbolTable :=
  (SymbolTable.empty.insert (memberSymbol fooMember)).insert (memberSymbol fooMaskMember)

/-- A symbol whose text is the same number for every resolver is folded to it. -/
theorem folded_of_constant {n : Nat} {t : SymbolTable} (size : t.size < n) {s : Symbol}
    (mem : s ∈ t.toList) {text : String} (expr : s.value = .expr text) {v : Int}
    (value : ∀ known, evaluate known text = .ok (some (.int v))) :
    Folded (Fold.fold n t).1 ⟨s.name, v⟩ := by
  have pending : (⟨s.name, text, s.location⟩ : Fold.Pending) ∈ Fold.pending t :=
    Fold.mem_pending.mpr ⟨s, mem, expr, rfl, rfl⟩
  exact ((Fold.fold_symbol size pending).1 (.int v)).mpr (value _)

theorem flagsSymbols_folded :
    let folded := (Fold.fold 1024 flagsSymbols).1
    Folded folded ⟨"A", 1⟩ ∧ Folded folded ⟨"B", 2⟩ := by
  have size : flagsSymbols.size < 1024 :=
    Nat.lt_of_le_of_lt (SymbolTable.size_insert_le _ _) (Nat.succ_lt_succ
      (Nat.lt_of_le_of_lt (SymbolTable.size_insert_le _ _) (by decide)))
  have one (known : Resolver) : evaluate known "1" = .ok (some (.int 1)) := by
    have marked : HexShield.shield "1" = "1" := by simp [HexShield.shield, HexShield.shieldFrom]
    rw [evaluate, marked]
    rfl
  have two (known : Resolver) : evaluate known "2" = .ok (some (.int 2)) := by
    have marked : HexShield.shield "2" = "2" := by simp [HexShield.shield, HexShield.shieldFrom]
    rw [evaluate, marked]
    rfl
  have first : flagsSymbols.get? "A" = some (memberSymbol fooMember) := by
    rw [flagsSymbols, SymbolTable.get?_insert, if_neg (by decide), SymbolTable.get?_insert]
    rfl
  have second : flagsSymbols.get? "B" = some (memberSymbol fooMaskMember) := by
    rw [flagsSymbols, SymbolTable.get?_insert]
    rfl
  exact ⟨folded_of_constant size (SymbolTable.get?_eq_some_iff.mp first).1 rfl one,
    folded_of_constant size (SymbolTable.get?_eq_some_iff.mp second).1 rfl two⟩

theorem headersFrom_flags {symbols : SymbolTable} (a : Folded symbols ⟨"A", 1⟩)
    (b : Folded symbols ⟨"B", 2⟩) :
    headersFrom { masks := ["FOO"] } symbols [] [flagsSource] = [⟨"flags.h", flagsTables⟩] := by
  have first : ["A"].filterMap (constant? symbols) = [⟨"A", 1⟩] := by
    rw [List.filterMap_cons_some (constant?_eq_some.mpr ⟨rfl, a⟩), List.filterMap_nil]
  have second : ["B"].filterMap (constant? symbols) = [⟨"B", 2⟩] := by
    rw [List.filterMap_cons_some (constant?_eq_some.mpr ⟨rfl, b⟩), List.filterMap_nil]
  have noMacros : groupByStem (macroConstants symbols flagsSource.declarations) = ([], []) := by
    show groupByStem [] = _
    decide +kernel
  have plans : plans symbols flagsSource.declarations =
      [⟨"FOO", .enumeration, [⟨"A", 1⟩]⟩, ⟨"FOO_MASK", .enumeration, [⟨"B", 2⟩]⟩] := by
    rw [Assemble.plans, noMacros, ← first, ← second]
    rfl
  have tables : (tablesFrom { masks := ["FOO"] } []
      [⟨"FOO", .enumeration, [⟨"A", 1⟩]⟩, ⟨"FOO_MASK", .enumeration, [⟨"B", 2⟩]⟩]).1 =
        flagsTables := by
    decide +kernel
  rw [headersFrom, plans, ← tables]
  rfl

theorem transpose_flags :
    (transpose { masks := ["FOO"] } [] [flagsSource]).headers = [⟨"flags.h", flagsTables⟩] :=
  headersFrom_flags flagsSymbols_folded.1 flagsSymbols_folded.2

theorem flagsTables_plain : ∀ t ∈ flagsTables, Plain t := by
  simp only [flagsTables, List.forall_mem_cons]
  refine ⟨⟨by decide +kernel, by decide +kernel, ?_⟩, ⟨by decide +kernel, by decide +kernel, ?_⟩,
    nofun⟩
  all_goals
    simp only [List.forall_mem_cons]
    exact ⟨by decide, nofun⟩

theorem flags_path : OneLine (Options.includePath {} "flags.h") := by decide +kernel

/-- The parser of a table and the flag writer of another one are defined under the same name. -/
theorem definedIn_duplicate :
    ¬ (definedIn (renderHeader {} "flags.h"
      (transpose { masks := ["FOO"] } [] [flagsSource]).headers)).Nodup := by
  have names : headerNames {} [⟨"flags.h", flagsTables⟩] =
      ["FOO_MAX_LEN", "FOO_PARSER", "FOO_MASK_MAX_LEN", "FOO_MASK_PARSER", "FOO_MASK_MAX_LEN",
        "FOO_MASK_PARSER"] := by
    decide +kernel
  rw [transpose_flags, definedIn_renderHeader flags_path
    (List.forall_mem_singleton.mpr (by decide)) (List.forall_mem_singleton.mpr flagsTables_plain),
    names]
  decide

theorem definedIn_nodup_iff_flags :
    OneLine (Options.includePath {} "flags.h") ∧ (∀ h ∈ [flagsSource], OneLine h.path) ∧
      ∃ tables, (transpose { masks := ["FOO"] } [] [flagsSource]).headers.flatMap (·.tables) = tables ∧
        (∀ t ∈ tables, Plain t) ∧
        ((definedIn (renderHeader {} "flags.h"
            (transpose { masks := ["FOO"] } [] [flagsSource]).headers)).Nodup ↔
          (∀ s ∈ tables, s.isMask = true → ∀ t ∈ tables, upper t.name ≠ upper s.name ++ "_MASK") ∧
            (((tables.flatMap (stems {})).filter (·.inline)).map (·.lower)).Nodup) := by
  have paths : ∀ h ∈ [flagsSource], OneLine h.path := by
    simp only [List.forall_mem_cons]
    exact ⟨by decide, nofun⟩
  have plain : ∀ h ∈ (transpose { masks := ["FOO"] } [] [flagsSource]).headers,
      ∀ t ∈ h.tables, Plain t := by
    rw [transpose_flags]
    simp only [List.forall_mem_cons]
    exact ⟨flagsTables_plain, nofun⟩
  refine ⟨flags_path, paths, _, rfl, ?_, definedIn_nodup_iff {} flags_path paths plain⟩
  simpa only [List.forall_mem_flatMap] using plain

end ConstLookup.Emit
