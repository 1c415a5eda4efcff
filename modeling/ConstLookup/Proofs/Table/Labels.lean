import ConstLookup.Proofs.Table.Collision
import Mathlib.Data.List.Pairwise

/-!
  Entries one by one (`mergeCollisions_one_each`). Values come in the order of their first members
  (`pairwise_distinctValues`). When an entry is made, the used names are the labels of the entries
  before it (`entriesFrom_split`); so a label is the one that its members ask for, unless an earlier
  entry has that, and no two are the same.
-/

namespace ConstLookup

open ConstLookup.Text

/-- Values in the order in which they first appear. -/
theorem pairwise_distinctValues (members : List NamedValue) :
    (distinctValues members).Pairwise fun v w =>
      (members.map (·.value)).idxOf v < (members.map (·.value)).idxOf w := by
  induction members with
  | nil => exact .nil
  | cons m ms ih =>
    have other {v : Int} (hv : v ∈ (distinctValues ms).filter (· ≠ m.value)) : m.value ≠ v :=
      Ne.symm (of_decide_eq_true (List.mem_filter.mp hv).2)
    rw [distinctValues, List.map_cons, List.pairwise_cons]
    constructor
    · intro v hv
      rw [List.idxOf_cons_self, List.idxOf_cons_ne _ (other hv)]
      exact Nat.succ_pos _
    · refine (ih.filter _).imp_of_mem fun hv hw lt => ?_
      rw [List.idxOf_cons_ne _ (other hv), List.idxOf_cons_ne _ (other hw)]
      exact Nat.succ_lt_succ lt

/-- The names that are used when the entry after `before` is made. -/
def usedBy (before : List Entry) (used : List String) : List String :=
  (before.map fun e => upper e.label).reverse ++ used

/-- What the entry of a value is, given the names used before. -/
structure EntryOf (members : List NamedValue) (used : List String) (e : Entry) : Prop where
  first : members.find? (·.value = e.representative.value) = some e.representative
  label : e.label = uniqueName used (baseLabel members e.representative.value)

theorem entriesFrom_split {members : List NamedValue} {values : List Int} {used : List String}
    {before after : List Entry} {e : Entry}
    (h : entriesFrom members used values = before ++ e :: after) :
    EntryOf members (usedBy before used) e := by
  induction values generalizing used before with
  | nil => simp [entriesFrom] at h
  | cons v vs ih =>
    rw [entriesFrom] at h
    split at h
    · exact ih h
    · next first found =>
      have value : first.value = v := by simpa using List.find?_some found
      cases before with
      | nil =>
        obtain ⟨rfl, -⟩ := List.cons.inj h
        exact ⟨value ▸ found, value ▸ rfl⟩
      | cons x before =>
        obtain ⟨rfl, rest⟩ := List.cons.inj h
        simpa [usedBy, markUsed] using ih rest

/-- The name of the only constant that has the value, or one label for all that have it. -/
theorem baseLabel_eq {members : List NamedValue} {v : Int} {first : NamedValue}
    (h : members.find? (·.value = v) = some first) :
    baseLabel members v = if (members.filter (·.value = v)).length = 1 then first.name
      else compositeLabel ((members.filter (·.value = v)).map (·.name)) := by
  rw [← List.head?_filter] at h
  unfold baseLabel
  split
  · next only same =>
    rw [same] at h ⊢
    obtain rfl := Option.some.inj h
    rfl
  · next several =>
    rw [if_neg fun one => ?_]
    obtain ⟨only, same⟩ := List.length_eq_one_iff.mp one
    exact several only same

/-- Every value of the members has one entry, in the order in which values first appear. The first
member with the value represents it. The entry is labelled by the name of that member if no other
one has the value, and else by one label for the names of all that have it. If an earlier entry has
that label, up to case, a number from two on is added to it. No two labels are equal up to case. -/
theorem mergeCollisions_one_each (members : List NamedValue) :
    let entries := mergeCollisions members
    let values := members.map (·.value)
    (∀ v, v ∈ entries.map (·.representative.value) ↔ v ∈ values) ∧
    (entries.map (·.representative.value)).Pairwise (fun v w => values.idxOf v < values.idxOf w) ∧
    (∀ before e after, entries = before ++ e :: after →
      let same := members.filter (·.value = e.representative.value)
      let base := if same.length = 1 then e.representative.name
        else compositeLabel (same.map (·.name))
      let earlier := before.map fun x => upper x.label
      members.find? (·.value = e.representative.value) = some e.representative ∧
        (upper base ∉ earlier ∧ e.label = base ∨
          upper base ∈ earlier ∧ ∃ n ≥ 2, e.label = s!"{base}_{n}")) ∧
    (entries.map fun e => upper e.label).Nodup := by
  intro entries values
  have spec := mergeCollisions_spec members
  refine ⟨fun v => ?each, ?order, ?label, spec.nodup⟩
  case each => rw [spec.values_eq, mem_distinctValues, List.mem_map]
  case order => exact spec.values_eq ▸ pairwise_distinctValues members
  case label =>
    intro before e after split same base earlier
    obtain ⟨first, label⟩ := entriesFrom_split split
    rw [baseLabel_eq first, usedBy, List.append_nil] at label
    refine ⟨first, ?_⟩
    by_cases used : upper base ∈ earlier
    · obtain ⟨n, two, suffixed⟩ := uniqueName_of_used (List.mem_reverse.mpr used)
      exact .inr ⟨used, n, two, label.trans suffixed⟩
    · exact .inl ⟨used, label.trans (uniqueName_of_unused (mt List.mem_reverse.mp used))⟩

/-- The label for two names is the name of a third constant, which gets a number. -/
theorem mergeCollisions_numbered :
    let members : List NamedValue := [⟨"A_B", 0⟩, ⟨"A_C", 0⟩, ⟨"A_B_OR_C", 1⟩]
    let before : List Entry := [⟨"A_B_OR_C", ⟨"A_B", 0⟩⟩]
    let e : Entry := ⟨"A_B_OR_C_2", ⟨"A_B_OR_C", 1⟩⟩
    let base := "A_B_OR_C"
    mergeCollisions members = before ++ e :: [] ∧
      members.find? (·.value = 1) = some e.representative ∧
      upper base ∈ before.map (fun x => upper x.label) ∧ ∃ n ≥ 2, e.label = s!"{base}_{n}" := by
  intro members before e base
  have made : mergeCollisions members = before ++ e :: [] := by decide +kernel
  obtain ⟨first, label⟩ := (mergeCollisions_one_each members).2.2.1 before e [] made
  refine ⟨made, first, ?_⟩
  rcases label with ⟨-, same⟩ | numbered
  · exact absurd same (by decide)
  · exact numbered

end ConstLookup
