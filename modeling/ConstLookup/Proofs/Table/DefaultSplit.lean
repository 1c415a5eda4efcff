import ConstLookup.Table.DefaultSplit
import Mathlib.Data.List.Basic
import Mathlib.Data.List.FinRange
import Mathlib.Data.List.Nodup

/-!
  Splitting by a key keeps every element and adds none. One element goes into every subset that
  lacks its key, and into a new one if all have it; so it goes somewhere, and no subset gets a key
  twice (`Covering.add`). In each subset the elements keep their order (`splitBy_covers`).

  Splitting commutes with a map that keeps the keys (`map_splitBy`). So constants are split as their
  places in the list are, which tells equal constants apart (`splitDefault_subsets`).
-/

namespace ConstLookup

section Key

variable {α β : Type} {key : α → Int}

/-- Add an element to every subset that lacks its key; if there is none, start a subset. -/
def addBy (key : α → Int) (subsets : List (List α)) (a : α) : List (List α) :=
  if subsets.all fun s => s.any (key · = key a) then subsets ++ [[a]]
  else subsets.map fun s => if s.any (key · = key a) then s else s ++ [a]

/-- Split a list into subsets of distinct keys. -/
def splitBy (key : α → Int) (l : List α) : List (List α) := l.foldl (addBy key) []

/-- The subsets hold the elements of a list and no others, in their order and with distinct keys. -/
structure Covering (key : α → Int) (subsets : List (List α)) (l : List α) : Prop where
  complete : ∀ a ∈ l, ∃ s ∈ subsets, a ∈ s
  sublist : ∀ s ∈ subsets, s.Sublist l
  distinct : ∀ s ∈ subsets, (s.map key).Nodup
  nonempty : ∀ s ∈ subsets, s ≠ []

theorem Covering.sound {subsets : List (List α)} {l : List α} (h : Covering key subsets l) :
    ∀ s ∈ subsets, ∀ a ∈ s, a ∈ l := fun s hs _ ha => (h.sublist s hs).subset ha

theorem any_key {s : List α} {a : α} : s.any (key · = key a) = true ↔ key a ∈ s.map key := by
  simp

/-- An element whose key all subsets have starts a subset. -/
theorem addBy_of_all {subsets : List (List α)} {a : α} (h : ∀ s ∈ subsets, key a ∈ s.map key) :
    addBy key subsets a = subsets ++ [[a]] :=
  if_pos (List.all_eq_true.mpr fun s hs => any_key.mpr (h s hs))

theorem addBy_of_lacks {subsets : List (List α)} {a : α} {s : List α} (hs : s ∈ subsets)
    (lacks : key a ∉ s.map key) :
    addBy key subsets a = subsets.map fun s => if key a ∈ s.map key then s else s ++ [a] := by
  rw [addBy, if_neg fun all => lacks (any_key.mp (List.all_eq_true.mp all s hs))]
  simp only [any_key]

/-- All that one element can do. -/
theorem addBy_cases (key : α → Int) (subsets : List (List α)) (a : α) :
    addBy key subsets a = subsets ++ [[a]] ∨
      (∃ s ∈ subsets, key a ∉ s.map key) ∧
        addBy key subsets a = subsets.map fun s => if key a ∈ s.map key then s else s ++ [a] := by
  by_cases all : ∀ s ∈ subsets, key a ∈ s.map key
  · exact .inl (addBy_of_all all)
  · obtain ⟨s, hs, lacks⟩ := by simpa only [not_forall, exists_prop] using all
    exact .inr ⟨⟨s, hs, lacks⟩, addBy_of_lacks hs lacks⟩

theorem mem_addBy {subsets : List (List α)} {a : α} {s : List α} (h : s ∈ addBy key subsets a) :
    s = [a] ∨ s ∈ subsets ∨ ∃ s' ∈ subsets, key a ∉ s'.map key ∧ s = s' ++ [a] := by
  rcases addBy_cases key subsets a with started | ⟨-, joined⟩
  · rw [started] at h
    rcases List.mem_append.mp h with h | h
    · exact .inr (.inl h)
    · exact .inl (List.mem_singleton.mp h)
  · rw [joined] at h
    obtain ⟨s', hs', rfl⟩ := List.mem_map.mp h
    split
    · exact .inr (.inl hs')
    · next lacks => exact .inr (.inr ⟨s', hs', lacks, rfl⟩)

/-- A subset stays, perhaps with one element more. -/
theorem exists_addBy {subsets : List (List α)} {s : List α} (h : s ∈ subsets) (a : α) :
    ∃ s' ∈ addBy key subsets a, s ⊆ s' := by
  rcases addBy_cases key subsets a with started | ⟨-, joined⟩
  · rw [started]
    exact ⟨s, List.mem_append_left _ h, List.Subset.refl s⟩
  · rw [joined]
    refine ⟨_, List.mem_map_of_mem h, ?_⟩
    split
    · exact List.Subset.refl s
    · exact List.subset_append_left s [a]

theorem exists_mem_addBy (subsets : List (List α)) (a : α) :
    ∃ s ∈ addBy key subsets a, a ∈ s := by
  rcases addBy_cases key subsets a with started | ⟨⟨s, hs, lacks⟩, joined⟩
  · rw [started]
    exact ⟨[a], List.mem_append_right _ List.mem_cons_self, List.mem_cons_self⟩
  · rw [joined]
    refine ⟨_, List.mem_map_of_mem hs, ?_⟩
    rw [if_neg lacks]
    exact List.mem_append_right s List.mem_cons_self

theorem nodup_map_append_singleton {s : List α} {a : α} (h : (s.map key).Nodup)
    (fresh : key a ∉ s.map key) : ((s ++ [a]).map key).Nodup := by
  rw [List.map_append, List.map_singleton, ← List.concat_eq_append]
  exact h.concat fresh

theorem Covering.add {subsets : List (List α)} {l : List α} (h : Covering key subsets l) (a : α) :
    Covering key (addBy key subsets a) (l ++ [a]) where
  complete b hb := by
    rcases List.mem_append.mp hb with hb | hb
    · obtain ⟨s, hs, hbs⟩ := h.complete b hb
      obtain ⟨s', hs', sub⟩ := exists_addBy hs a
      exact ⟨s', hs', sub hbs⟩
    · rw [List.mem_singleton.mp hb]
      exact exists_mem_addBy subsets a
  sublist s hs := by
    rcases mem_addBy hs with rfl | hs | ⟨s', hs', -, rfl⟩
    · exact List.sublist_append_right l [a]
    · exact (h.sublist s hs).trans (List.sublist_append_left l [a])
    · exact (h.sublist s' hs').append (List.Sublist.refl [a])
  distinct s hs := by
    rcases mem_addBy hs with rfl | hs | ⟨s', hs', lacks, rfl⟩
    · exact List.nodup_singleton _
    · exact h.distinct s hs
    · exact nodup_map_append_singleton (h.distinct s' hs') lacks
  nonempty s hs := by
    rcases mem_addBy hs with rfl | hs | ⟨s', -, -, rfl⟩
    · exact List.cons_ne_nil a []
    · exact h.nonempty s hs
    · exact List.append_ne_nil_of_right_ne_nil s' (List.cons_ne_nil a [])

theorem foldl_addBy_covers {subsets : List (List α)} {before : List α}
    (h : Covering key subsets before) (l : List α) :
    Covering key (l.foldl (addBy key) subsets) (before ++ l) := by
  induction l generalizing subsets before with
  | nil => rwa [List.append_nil]
  | cons a l ih =>
    rw [List.foldl_cons, List.append_cons]
    exact ih (h.add a)

theorem splitBy_covers (key : α → Int) (l : List α) : Covering key (splitBy key l) l := by
  have start : Covering key [] [] := ⟨nofun, nofun, nofun, nofun⟩
  exact foldl_addBy_covers start l

theorem map_addBy (f : β → α) (subsets : List (List β)) (b : β) :
    (addBy (key ∘ f) subsets b).map (·.map f) = addBy key (subsets.map (·.map f)) (f b) := by
  unfold addBy
  simp only [List.all_map, List.any_map, Function.comp_def]
  split
  · simp
  · simp [apply_ite]

/-- Splitting what a list is mapped to is mapping the subsets of the list. -/
theorem map_splitBy (f : β → α) (l : List β) :
    (splitBy (key ∘ f) l).map (·.map f) = splitBy key (l.map f) := by
  have fold (subsets : List (List β)) : (l.foldl (addBy (key ∘ f)) subsets).map (·.map f) =
      (l.map f).foldl (addBy key) (subsets.map (·.map f)) := by
    induction l generalizing subsets with
    | nil => rfl
    | cons b l ih => rw [List.foldl_cons, ih, map_addBy, List.map_cons, List.foldl_cons]
  exact fold []

end Key

/-! ## Subsets of constants -/

theorem splitDefault_eq_splitBy (members : List NamedValue) :
    splitDefault members = splitBy (·.value) members := rfl

theorem splitDefault_covers (members : List NamedValue) :
    Covering (·.value) (splitDefault members) members :=
  splitBy_covers _ members

/-- The places of the constants of each subset. -/
def splitPlaces (members : List NamedValue) : List (List (Fin members.length)) :=
  splitBy (fun i => (members.get i).value) (List.finRange members.length)

theorem splitPlaces_covers (members : List NamedValue) :
    Covering (fun i => (members.get i).value) (splitPlaces members)
      (List.finRange members.length) :=
  splitBy_covers _ _

theorem map_splitPlaces (members : List NamedValue) :
    (splitPlaces members).map (·.map members.get) = splitDefault members := by
  rw [splitDefault_eq_splitBy]
  conv => rhs; rw [← List.map_get_finRange members]
  exact map_splitBy members.get _

/-- No subset is empty or holds a value twice, and each has its constants in the order of the list.
Subsets are taken at places of the list, and every place is in some of them; so a constant that is
there several times is in as many subsets, at least. -/
theorem splitDefault_subsets (members : List NamedValue) :
    (∀ s ∈ splitDefault members, s ≠ [] ∧ (s.map (·.value)).Nodup ∧ s.Sublist members) ∧
    ∃ places : List (List (Fin members.length)),
      splitDefault members = places.map (·.map members.get) ∧
      (∀ p ∈ places, p.Pairwise (· < ·)) ∧ ∀ i, ∃ p ∈ places, i ∈ p := by
  have subsets := splitDefault_covers members
  have places := splitPlaces_covers members
  refine ⟨fun s hs => ⟨subsets.nonempty s hs, subsets.distinct s hs, subsets.sublist s hs⟩,
    splitPlaces members, (map_splitPlaces members).symm, fun p hp => ?_, fun i => ?_⟩
  · exact (List.pairwise_lt_finRange _).sublist (places.sublist p hp)
  · exact places.complete i (List.mem_finRange i)

end ConstLookup
