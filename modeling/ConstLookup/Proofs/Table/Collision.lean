import ConstLookup.Proofs.Table.UniqueName
import ConstLookup.Proofs.Text.Runs

/-!
  The labels of entries are names chosen in turn (`map_label_entriesFrom`), so they are distinct
  without regard to case. There is one entry for every value of the members, each represented by a
  member (`mergeCollisions_spec`). The label for unknown values is not made up for known ones
  (`label_eq_unknown`).
-/

namespace ConstLookup

open ConstLookup.Text

/-! ## Entries -/

theorem mem_distinctValues {members : List NamedValue} {v : Int} :
    v ∈ distinctValues members ↔ ∃ m ∈ members, m.value = v := by
  induction members with
  | nil => simp [distinctValues]
  | cons m ms ih =>
    rw [distinctValues, List.mem_cons, List.mem_filter, ih, List.exists_mem_cons_iff,
      decide_eq_true_eq]
    by_cases hv : v = m.value
    · simp [hv]
    · simp [hv, Ne.symm hv]

theorem nodup_distinctValues (members : List NamedValue) : (distinctValues members).Nodup := by
  induction members with
  | nil => exact List.nodup_nil
  | cons m ms ih =>
    refine List.nodup_cons.mpr ⟨?_, ih.filter _⟩
    simp

/-- What the entries of some values are, with labels that were not used before. -/
structure EntriesOf (members : List NamedValue) (used : List String) (values : List Int)
    (entries : List Entry) : Prop where
  values_eq : entries.map (·.representative.value) = values
  members_mem : ∀ e ∈ entries, e.representative ∈ members
  nodup : (entries.map fun e => upper e.label).Nodup
  unused : ∀ e ∈ entries, upper e.label ∉ used
  label : ∀ e ∈ entries, ∃ n, e.label = nameChoice (baseLabel members e.representative.value) n

theorem exists_find?_value {members : List NamedValue} {v : Int}
    (h : ∃ m ∈ members, m.value = v) : ∃ first, members.find? (·.value = v) = some first := by
  obtain ⟨m, hm, hv⟩ := h
  exact Option.isSome_iff_exists.mp (List.find?_isSome.mpr ⟨m, hm, decide_eq_true hv⟩)

theorem entriesFrom_cons {members : List NamedValue} {v : Int} {first : NamedValue}
    (found : members.find? (·.value = v) = some first) (used : List String) (vs : List Int) :
    entriesFrom members used (v :: vs) =
      { label := uniqueName used (baseLabel members v), representative := first } ::
        entriesFrom members (markUsed used (uniqueName used (baseLabel members v))) vs := by
  rw [entriesFrom, found]

theorem map_label_entriesFrom {members : List NamedValue} {values : List Int}
    (h : ∀ v ∈ values, ∃ m ∈ members, m.value = v) (used : List String) :
    (entriesFrom members used values).map (·.label) =
      uniqueNames used (values.map (baseLabel members)) := by
  induction values generalizing used with
  | nil => rfl
  | cons v vs ih =>
    obtain ⟨own, others⟩ := List.forall_mem_cons.mp h
    obtain ⟨first, found⟩ := exists_find?_value own
    rw [entriesFrom_cons found, List.map_cons, ih others]
    rfl

/-- The entries stand for the values in turn, and each is represented by a member. -/
theorem entriesFrom_represent {members : List NamedValue} {values : List Int}
    (h : ∀ v ∈ values, ∃ m ∈ members, m.value = v) (used : List String) :
    (entriesFrom members used values).map (·.representative.value) = values ∧
      ∀ e ∈ entriesFrom members used values, e.representative ∈ members ∧
        ∃ n, e.label = nameChoice (baseLabel members e.representative.value) n := by
  induction values generalizing used with
  | nil => exact ⟨rfl, nofun⟩
  | cons v vs ih =>
    obtain ⟨own, others⟩ := List.forall_mem_cons.mp h
    obtain ⟨first, found⟩ := exists_find?_value own
    have value : first.value = v := by simpa using List.find?_some found
    obtain ⟨values_eq, each⟩ := ih others (markUsed used (uniqueName used (baseLabel members v)))
    rw [entriesFrom_cons found]
    refine ⟨congrArg₂ List.cons value values_eq, List.forall_mem_cons.mpr ⟨⟨?_, ?_⟩, each⟩⟩
    · exact List.mem_of_find?_eq_some found
    · exact value ▸ uniqueName_eq_choice used _

theorem entriesFrom_spec {members : List NamedValue} {values : List Int}
    (h : ∀ v ∈ values, ∃ m ∈ members, m.value = v) (used : List String) :
    EntriesOf members used values (entriesFrom members used values) := by
  obtain ⟨values_eq, each⟩ := entriesFrom_represent h used
  obtain ⟨nodup, unused⟩ := uniqueNames_distinct used (values.map (baseLabel members))
  rw [← map_label_entriesFrom h, List.map_map] at nodup
  rw [← map_label_entriesFrom h] at unused
  exact ⟨values_eq, fun e he => (each e he).1, nodup,
    fun e he => unused e.label (List.mem_map_of_mem he), fun e he => (each e he).2⟩

theorem mergeCollisions_spec (members : List NamedValue) :
    EntriesOf members [] (distinctValues members) (mergeCollisions members) :=
  entriesFrom_spec (fun _ hv => mem_distinctValues.mp hv) []

/-- The values of the entries are those of the members. -/
theorem exists_entry_iff {members : List NamedValue} {v : Int} :
    (∃ e ∈ mergeCollisions members, e.representative.value = v) ↔ ∃ m ∈ members, m.value = v := by
  rw [← mem_distinctValues, ← (mergeCollisions_spec members).values_eq, List.mem_map]

/-! ## Labels for several names -/

/-- The cut is at the last underscore. -/
theorem beforeUnderscore?_eq_some_last {cs before : List Char}
    (h : beforeUnderscore? cs = some before) :
    ∃ after, '_' ∉ after ∧ cs = before ++ '_' :: after := by
  unfold beforeUnderscore? at h
  split at h
  · cases h
  · next c rest e =>
    obtain rfl := Option.some.inj h
    have underscore : c = '_' := by
      simpa using head_dropWhile (fun x => decide (x ≠ '_')) cs.reverse c (e ▸ rfl)
    subst underscore
    have whole := List.takeWhile_append_dropWhile (p := fun x => decide (x ≠ '_')) (l := cs.reverse)
    have plain : '_' ∉ cs.reverse.takeWhile fun x => decide (x ≠ '_') := fun mem => by
      simpa using List.mem_takeWhile_imp mem
    rw [e] at whole
    generalize cs.reverse.takeWhile (fun x => decide (x ≠ '_')) = front at whole plain
    refine ⟨front.reverse, by simpa using plain, ?_⟩
    rw [← List.reverse_inj, ← whole]
    simp

theorem beforeUnderscore?_eq_some {cs before : List Char} (h : beforeUnderscore? cs = some before) :
    ∃ after, cs = before ++ '_' :: after := by
  obtain ⟨after, -, whole⟩ := beforeUnderscore?_eq_some_last h
  exact ⟨after, whole⟩

theorem commonStart_starts (a b : List Char) : commonStart a b <+: a := by
  fun_induction commonStart a b with
  | case1 a as bs ih => exact List.cons_prefix_cons.mpr ⟨rfl, ih⟩
  | case2 => exact List.nil_prefix
  | case3 => exact List.nil_prefix

theorem foldl_commonStart_starts (others : List (List Char)) (first : List Char) :
    others.foldl commonStart first <+: first := by
  induction others generalizing first with
  | nil => exact List.prefix_refl first
  | cons o os ih => exact (ih _).trans (commonStart_starts first o)

/-- A label for several names holds an underscore. -/
theorem underscore_mem_compositeLabel (a b : String) (names : List String) :
    '_' ∈ (compositeLabel (a :: b :: names)).toList := by
  unfold compositeLabel
  simp only [List.map_cons]
  split
  · next stem h =>
    obtain ⟨after, cut⟩ := beforeUnderscore?_eq_some h
    obtain ⟨more, whole⟩ := foldl_commonStart_starts
      (upperChars b.toList :: names.map fun n => upperChars n.toList) (upperChars a.toList)
    rw [cut] at whole
    have ends : (upperChars a.toList).drop stem.length = '_' :: (after ++ more) := by
      rw [← whole]
      simp
    rw [String.toList_ofList, ends, List.intercalate_cons_cons]
    simp
  · rw [String.toList_ofList, List.intercalate_cons_cons]
    simp

/-- No label is made up to be the one for unknown values: only a constant of that name, alone
with its value, is labelled so. -/
theorem label_eq_unknown {members : List NamedValue} {e : Entry}
    (he : e ∈ mergeCollisions members) (h : e.label = unknownLabel) :
    ∃ only, members.filter (·.value = e.representative.value) = [only] ∧
      only.name = unknownLabel := by
  have none : '_' ∉ unknownLabel.toList := by decide
  obtain ⟨n, choice⟩ := (mergeCollisions_spec members).label e he
  rw [h] at choice
  have zero : n = 0 := by
    cases n with
    | zero => rfl
    | succ n =>
      rw [choice, toList_nameChoice, choiceSuffix] at none
      simp at none
  subst zero
  have base : baseLabel members e.representative.value = unknownLabel := choice.symm
  unfold baseLabel at base
  rcases hf : members.filter (·.value = e.representative.value) with _ | ⟨a, _ | ⟨b, rest⟩⟩
  · rw [hf] at base
    exact absurd base (by decide)
  · rw [hf] at base
    exact ⟨a, hf, base⟩
  · rw [hf] at base
    have mem := underscore_mem_compositeLabel a.name b.name (rest.map (·.name))
    exact absurd (base ▸ mem) none

end ConstLookup
