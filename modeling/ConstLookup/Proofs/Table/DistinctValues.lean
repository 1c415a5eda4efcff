import ConstLookup.Proofs.Table.Labels

/-!
  Entries of members with distinct values (`mergeCollisions_of_distinct`). There is one entry for
  each member, in the order of the members (`mergeCollisions_eq_labelled`). A label is the name of
  its member, unless an earlier label is that name up to case; a number that was added to an earlier
  name can bring this about, too. So all labels are the names if and only if no two names are equal
  up to case. Names that differ in case only are not kept apart (`mergeCollisions_case`).
-/

namespace ConstLookup

open ConstLookup.Text

theorem distinctValues_of_nodup {members : List NamedValue} (h : (members.map (·.value)).Nodup) :
    distinctValues members = members.map (·.value) := by
  induction members with
  | nil => rfl
  | cons m ms ih =>
    obtain ⟨fresh, rest⟩ := List.nodup_cons.mp h
    rw [distinctValues, ih rest, List.map_cons, List.filter_eq_self.mpr]
    exact fun v hv => decide_eq_true (ne_of_mem_of_not_mem hv fresh)

/-- No other member has the value. -/
theorem filter_value_eq {members : List NamedValue} (h : (members.map (·.value)).Nodup)
    {m : NamedValue} (hm : m ∈ members) : members.filter (·.value = m.value) = [m] := by
  induction members with
  | nil => cases hm
  | cons n ns ih =>
    obtain ⟨fresh, rest⟩ := List.nodup_cons.mp h
    rcases List.mem_cons.mp hm with rfl | hm
    · rw [List.filter_cons_of_pos (by simp), List.filter_eq_nil_iff.mpr]
      exact fun x hx same =>
        ne_of_mem_of_not_mem (List.mem_map_of_mem hx) fresh (of_decide_eq_true same)
    · rw [List.filter_cons_of_neg, ih rest hm]
      exact fun same =>
        ne_of_mem_of_not_mem (List.mem_map_of_mem hm) fresh (of_decide_eq_true same).symm

/-- An entry for each member, labelled by its name or by the next free choice for that. -/
def labelled (used : List String) : List NamedValue → List Entry
  | [] => []
  | m :: ms =>
    let label := uniqueName used m.name
    { label := label, representative := m } :: labelled (markUsed used label) ms

theorem entriesFrom_eq_labelled {members ms : List NamedValue} (h : (members.map (·.value)).Nodup)
    (sub : ms ⊆ members) (used : List String) :
    entriesFrom members used (ms.map (·.value)) = labelled used ms := by
  induction ms generalizing used with
  | nil => rfl
  | cons m ms ih =>
    obtain ⟨hm, sub⟩ := List.cons_subset.mp sub
    have only := filter_value_eq h hm
    have found : members.find? (·.value = m.value) = some m := by
      rw [← List.head?_filter, only]
      rfl
    rw [List.map_cons, entriesFrom, found, baseLabel, only]
    exact congrArg _ (ih sub _)

theorem mergeCollisions_eq_labelled {members : List NamedValue}
    (h : (members.map (·.value)).Nodup) : mergeCollisions members = labelled [] members := by
  rw [mergeCollisions, distinctValues_of_nodup h]
  exact entriesFrom_eq_labelled h (List.Subset.refl members) []

theorem map_representative_labelled (used : List String) (members : List NamedValue) :
    (labelled used members).map (·.representative) = members := by
  induction members generalizing used with
  | nil => rfl
  | cons m ms ih => exact congrArg (m :: ·) (ih _)

theorem labelled_split {used : List String} {members : List NamedValue} {before after : List Entry}
    {e : Entry} (h : labelled used members = before ++ e :: after) :
    e.label = uniqueName (usedBy before used) e.representative.name := by
  induction members generalizing used before with
  | nil => simp [labelled] at h
  | cons m ms ih =>
    cases before with
    | nil =>
      obtain ⟨rfl, -⟩ := List.cons.inj h
      rfl
    | cons x before =>
      obtain ⟨rfl, rest⟩ := List.cons.inj h
      simpa [usedBy, markUsed] using ih rest

theorem uniqueName_eq_self_iff {used : List String} {base : String} :
    uniqueName used base = base ↔ upper base ∉ used :=
  ⟨fun same => same ▸ uniqueName_free used base, uniqueName_of_unused⟩

theorem labelled_of_free {used : List String} {members : List NamedValue}
    (free : ∀ m ∈ members, upper m.name ∉ used)
    (distinct : (members.map fun m => upper m.name).Nodup) :
    labelled used members = members.map fun m => ⟨m.name, m⟩ := by
  induction members generalizing used with
  | nil => rfl
  | cons m ms ih =>
    obtain ⟨unused, free⟩ := List.forall_mem_cons.mp free
    obtain ⟨fresh, distinct⟩ := List.nodup_cons.mp distinct
    rw [labelled, uniqueName_of_unused unused, List.map_cons, ih ?_ distinct]
    intro n hn again
    rcases List.mem_cons.mp again with same | again
    · exact ne_of_mem_of_not_mem (List.mem_map_of_mem hn) fresh same
    · exact free n hn again

/-- Members with distinct values have one entry each, in their order. The label of an entry is the
name of its member, unless an earlier label is that up to case. So the labels are the names if and
only if these are distinct up to case. -/
theorem mergeCollisions_of_distinct {members : List NamedValue}
    (h : (members.map (·.value)).Nodup) :
    (mergeCollisions members).map (·.representative) = members ∧
    (∀ before e after, mergeCollisions members = before ++ e :: after →
      (e.label = e.representative.name ↔
        upper e.representative.name ∉ before.map fun x => upper x.label)) ∧
    (mergeCollisions members = members.map (fun m => ⟨m.name, m⟩) ↔
      (members.map fun m => upper m.name).Nodup) := by
  have spec := mergeCollisions_spec members
  rw [mergeCollisions_eq_labelled h] at spec ⊢
  refine ⟨map_representative_labelled [] members, fun before e after split => ?_,
    fun names => ?_, labelled_of_free fun _ _ => List.not_mem_nil⟩
  · rw [labelled_split split, uniqueName_eq_self_iff, usedBy, List.append_nil, List.mem_reverse]
  · have nodup := spec.nodup
    rwa [names, List.map_map] at nodup

/-- A name that is another name with a number is no clash by itself. -/
theorem mergeCollisions_of_distinct_numbers :
    let members : List NamedValue := [⟨"A_2", 1⟩, ⟨"A", 2⟩, ⟨"a_2_2", 3⟩]
    (members.map (·.value)).Nodup ∧
      mergeCollisions members =
        [⟨"A_2", ⟨"A_2", 1⟩⟩, ⟨"A", ⟨"A", 2⟩⟩, ⟨"a_2_2", ⟨"a_2_2", 3⟩⟩] := by
  intro members
  have values : (members.map (·.value)).Nodup := by decide
  exact ⟨values, (mergeCollisions_of_distinct values).2.2.mpr (by decide +kernel)⟩

/-- Distinct names do not suffice: one that differs from an earlier one in case only gets a
number. -/
theorem mergeCollisions_case :
    ¬ ∀ members : List NamedValue, (members.map (·.value)).Nodup → (members.map (·.name)).Nodup →
      mergeCollisions members = members.map fun m => ⟨m.name, m⟩ := by
  intro h
  exact absurd (h [⟨"a", 1⟩, ⟨"A", 2⟩] (by decide) (by decide)) (by decide +kernel)

end ConstLookup
