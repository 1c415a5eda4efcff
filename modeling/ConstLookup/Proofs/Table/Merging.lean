import ConstLookup.Proofs.Table.StemGroup
import Mathlib.Data.List.Chain
import Mathlib.Data.List.Forall2
import Mathlib.Data.List.Infix
import Mathlib.Tactic.ByContra

/-!
  What merging does to groups. It unites runs of neighbouring groups and does nothing else
  (`mergeGroups_eq_runs`). The groups of a run have no value in common, and their stems start with
  the stem of the first of them (`GroupRun.Sound`); so merging conflates nothing
  (`mergeGroups_unions`).

  A run ends where its last group cannot absorb the run after it (`isChain_runs`). Whether the whole
  run could is not asked. So a second pass can merge more: it does exactly where the stem of the
  next run starts with the stem of the run, but not with that of the last group in the run
  (`mergeGroups_settled_iff`). Groups that are siblings of each other are such a case
  (`mergeGroups_siblings`).
-/

namespace ConstLookup

/-! ## Runs -/

/-- Neighbouring groups that merging unites. -/
structure GroupRun where
  first : String × List NamedValue
  rest : Groups

namespace GroupRun

/-- All groups of the run. -/
def groups (r : GroupRun) : Groups := r.first :: r.rest

/-- One group with the stem of the first group and the members of all. -/
def united (r : GroupRun) : String × List NamedValue := (r.first.1, r.groups.flatMap (·.2))

/-- The members of a group stand in a row in its run. -/
theorem members_infix (r : GroupRun) {g : String × List NamedValue} (hg : g ∈ r.groups) :
    g.2 <:+: r.united.2 := by
  rw [united, List.flatMap_def]
  exact List.infix_of_mem_flatten (List.mem_map_of_mem hg)

/-- The last group. -/
def last (r : GroupRun) : String × List NamedValue := r.groups.getLast (List.cons_ne_nil _ _)

end GroupRun

/-- The stem of `h` starts with that of `g`, and the groups have no value in common. -/
def Mergeable (g h : String × List NamedValue) : Prop :=
  g.1.toList <+: h.1.toList ∧ ∀ x ∈ g.2, ∀ y ∈ h.2, x.value ≠ y.value

instance (g h : String × List NamedValue) : Decidable (Mergeable g h) := instDecidableAnd

/-- Put a group before runs: into the first of them if it can absorb that. -/
def joinRuns (g : String × List NamedValue) : List GroupRun → List GroupRun
  | [] => [⟨g, []⟩]
  | r :: rs => if Mergeable g r.united then ⟨g, r.groups⟩ :: rs else ⟨g, []⟩ :: r :: rs

/-- The runs of groups that merging unites. -/
def groupRuns : Groups → List GroupRun
  | [] => []
  | g :: groups => joinRuns g (groupRuns groups)

theorem absorb_cons (g next : String × List NamedValue) (rest : Groups) :
    absorb g (next :: rest) =
      if Mergeable g next then (g.1, g.2 ++ next.2) :: rest else g :: next :: rest := by
  have same : (g.1.toList.isPrefixOf next.1.toList && disjointValues g.2 next.2) = true ↔
      Mergeable g next := by
    simp [Mergeable, disjointValues]
  simp only [absorb, same]

theorem absorb_map_united (g : String × List NamedValue) (rs : List GroupRun) :
    absorb g (rs.map GroupRun.united) = (joinRuns g rs).map GroupRun.united := by
  cases rs with
  | nil => simp [absorb, joinRuns, GroupRun.united, GroupRun.groups]
  | cons r rs =>
    rw [List.map_cons, absorb_cons, joinRuns]
    split <;> simp [GroupRun.united, GroupRun.groups]

/-- Merging unites the groups of each run. -/
theorem mergeGroups_eq_runs (groups : Groups) :
    mergeGroups groups = (groupRuns groups).map GroupRun.united := by
  induction groups with
  | nil => rfl
  | cons g groups ih => rw [mergeGroups_cons, ih, groupRuns, absorb_map_united]

/-! ## The groups of the runs -/

theorem flatMap_joinRuns (g : String × List NamedValue) (rs : List GroupRun) :
    (joinRuns g rs).flatMap GroupRun.groups = g :: rs.flatMap GroupRun.groups := by
  cases rs with
  | nil => rfl
  | cons r rs =>
    rw [joinRuns]
    split <;> simp [GroupRun.groups]

/-- Runs one after the other are the groups. -/
theorem flatMap_runs (groups : Groups) : (groupRuns groups).flatMap GroupRun.groups = groups := by
  induction groups with
  | nil => rfl
  | cons g groups ih => rw [groupRuns, flatMap_joinRuns, ih]

theorem map_first_sublist (rs : List GroupRun) :
    (rs.map GroupRun.first).Sublist (rs.flatMap GroupRun.groups) := by
  induction rs with
  | nil => exact .slnil
  | cons r rs ih => exact (ih.trans (List.sublist_append_right r.rest _)).cons_cons r.first

/-- The stems of the groups start with the first one, and no two groups have a value in common. -/
structure GroupRun.Sound (r : GroupRun) : Prop where
  starts : ∀ g ∈ r.groups, r.first.1.toList <+: g.1.toList
  apart : r.groups.Pairwise fun g h => ∀ x ∈ g.2, ∀ y ∈ h.2, x.value ≠ y.value

theorem GroupRun.sound_single (g : String × List NamedValue) : GroupRun.Sound ⟨g, []⟩ where
  starts h hh := by
    obtain rfl := List.mem_singleton.mp hh
    exact List.prefix_refl _
  apart := List.pairwise_singleton _ _

theorem GroupRun.Sound.cons {r : GroupRun} (sound : r.Sound) {g : String × List NamedValue}
    (h : Mergeable g r.united) : GroupRun.Sound ⟨g, r.groups⟩ where
  starts k hk := by
    rcases List.mem_cons.mp hk with rfl | hk
    · exact List.prefix_refl _
    · exact h.1.trans (sound.starts k hk)
  apart := by
    refine List.pairwise_cons.mpr ⟨fun k hk x hx y hy => ?_, sound.apart⟩
    exact h.2 x hx y ((r.members_infix hk).subset hy)

theorem sound_joinRuns (g : String × List NamedValue) {rs : List GroupRun} (h : ∀ r ∈ rs, r.Sound) :
    ∀ r ∈ joinRuns g rs, r.Sound := by
  cases rs with
  | nil => exact List.forall_mem_singleton.mpr (GroupRun.sound_single g)
  | cons r rs =>
    obtain ⟨first, rest⟩ := List.forall_mem_cons.mp h
    rw [joinRuns]
    split
    · next mergeable => exact List.forall_mem_cons.mpr ⟨first.cons mergeable, rest⟩
    · exact List.forall_mem_cons.mpr ⟨GroupRun.sound_single g, h⟩

theorem sound_runs (groups : Groups) : ∀ r ∈ groupRuns groups, r.Sound := by
  induction groups with
  | nil => nofun
  | cons g groups ih => exact sound_joinRuns g ih

/-- Merging conflates nothing. No member is lost, made up or moved, and every stem was there before.
The groups fall into parts, one after the other, and each merged group comes from one part: it has
the stem of the first group there, with which all stems of the part start, and the members of every
group of the part in a row. No two groups of a part have a value in common, so members with equal
values were in one group. -/
theorem mergeGroups_unions (groups : Groups) :
    (mergeGroups groups).flatMap (·.2) = groups.flatMap (·.2) ∧
    ((mergeGroups groups).map (·.1)).Sublist (groups.map (·.1)) ∧
    ∃ parts : List Groups, parts.flatten = groups ∧
      List.Forall₂ (fun part merged =>
        (part.head?.map (·.1) = some merged.1 ∧ part.flatMap (·.2) = merged.2) ∧
        (∀ g ∈ part, merged.1.toList <+: g.1.toList ∧ g.2 <:+: merged.2) ∧
        part.Pairwise fun g h => ∀ x ∈ g.2, ∀ y ∈ h.2, x.value ≠ y.value)
      parts (mergeGroups groups) := by
  refine ⟨mergeGroups_members groups, ?stems, (groupRuns groups).map GroupRun.groups, ?whole, ?each⟩
  case stems =>
    have firsts := (map_first_sublist (groupRuns groups)).map (·.1)
    rw [flatMap_runs, List.map_map] at firsts
    rw [mergeGroups_eq_runs, List.map_map]
    exact firsts
  case whole => exact flatMap_runs groups
  case each =>
    rw [mergeGroups_eq_runs, List.forall₂_map_left_iff, List.forall₂_map_right_iff,
      List.forall₂_same]
    intro r hr
    have sound := sound_runs groups r hr
    exact ⟨⟨rfl, rfl⟩, fun g hg => ⟨sound.starts g hg, r.members_infix hg⟩, sound.apart⟩

/-! ## A second pass -/

theorem length_mergeGroups_le (groups : Groups) : (mergeGroups groups).length ≤ groups.length := by
  have le := (map_first_sublist (groupRuns groups)).length_le
  rw [flatMap_runs, List.length_map] at le
  rwa [mergeGroups_eq_runs, List.length_map]

theorem absorb_eq_cons_iff (g : String × List NamedValue) (groups : Groups) :
    absorb g groups = g :: groups ↔ ∀ h ∈ groups.head?, ¬ Mergeable g h := by
  cases groups with
  | nil => simp [absorb]
  | cons h rest =>
    simp only [absorb_cons, List.head?_cons, Option.mem_some_iff, forall_eq']
    split
    · next mergeable =>
      refine iff_of_false (fun same => ?_) (not_not_intro mergeable)
      simpa using congrArg List.length same
    · next apart => exact iff_of_true rfl apart

theorem length_absorb_of_ne {g : String × List NamedValue} {groups : Groups}
    (h : absorb g groups ≠ g :: groups) : (absorb g groups).length = groups.length := by
  cases groups with
  | nil => exact absurd rfl h
  | cons next rest =>
    rw [absorb_cons] at h ⊢
    split at h
    · next mergeable => rw [if_pos mergeable, List.length_cons, List.length_cons]
    · exact absurd rfl h

/-- Merging leaves groups alone if and only if no two neighbours can be merged. -/
theorem mergeGroups_eq_self_iff (groups : Groups) :
    mergeGroups groups = groups ↔ groups.IsChain fun g h => ¬ Mergeable g h := by
  induction groups with
  | nil => exact iff_of_true rfl .nil
  | cons g groups ih =>
    rw [mergeGroups_cons, List.isChain_cons, ← ih, ← absorb_eq_cons_iff]
    constructor
    · intro same
      -- absorbing would leave one group less, and merging the rest leaves no more groups
      have kept : absorb g (mergeGroups groups) = g :: mergeGroups groups := by
        by_contra absorbed
        have length := length_absorb_of_ne absorbed
        rw [same, List.length_cons] at length
        have le := length_mergeGroups_le groups
        omega
      obtain ⟨-, settled⟩ := List.cons.inj (kept.symm.trans same)
      exact ⟨by rwa [settled] at kept, settled⟩
    · rintro ⟨kept, settled⟩
      rw [settled, kept]

theorem isChain_joinRuns (g : String × List NamedValue) {rs : List GroupRun}
    (h : rs.IsChain fun r s => ¬ Mergeable r.last s.united) :
    (joinRuns g rs).IsChain fun r s => ¬ Mergeable r.last s.united := by
  cases rs with
  | nil => exact .singleton _
  | cons r rs =>
    rw [joinRuns]
    split
    · rw [List.isChain_cons] at h ⊢
      exact h
    · next apart => exact List.isChain_cons_cons.mpr ⟨apart, h⟩

/-- Between two runs the last group of the first one could not absorb the second one. -/
theorem isChain_runs (groups : Groups) :
    (groupRuns groups).IsChain fun r s => ¬ Mergeable r.last s.united := by
  induction groups with
  | nil => exact .nil
  | cons g groups ih => exact isChain_joinRuns g ih

/-- The run `s` could be merged into `r` as a whole, but its stem does not start with that of the
last group of `r`. -/
def GroupRun.Misses (r s : GroupRun) : Prop :=
  Mergeable r.united s.united ∧ ¬ r.last.1.toList <+: s.first.1.toList

theorem GroupRun.misses_iff {r s : GroupRun} (stopped : ¬ Mergeable r.last s.united) :
    r.Misses s ↔ Mergeable r.united s.united := by
  refine ⟨And.left, fun mergeable => ⟨mergeable, fun starts => stopped ⟨starts, ?_⟩⟩⟩
  exact fun x hx => mergeable.2 x ((r.members_infix (List.getLast_mem _)).subset hx)

/-- A second pass changes nothing if and only if there are no neighbours left to merge. It is so
unless a run could be merged into the one before it as a whole, while its stem does not start with
that of the last group there. -/
theorem mergeGroups_settled_iff (groups : Groups) :
    (mergeGroups (mergeGroups groups) = mergeGroups groups ↔
      (mergeGroups groups).IsChain fun g h => ¬ Mergeable g h) ∧
    (mergeGroups (mergeGroups groups) = mergeGroups groups ↔
      (groupRuns groups).IsChain fun r s => ¬ r.Misses s) := by
  have missed : ((groupRuns groups).IsChain fun r s => ¬ r.Misses s) ↔
      (mergeGroups groups).IsChain fun g h => ¬ Mergeable g h := by
    have stopped := isChain_runs groups
    rw [mergeGroups_eq_runs, List.isChain_map]
    simp only [List.isChain_iff_getElem] at stopped ⊢
    exact forall₂_congr fun i hi => not_congr (GroupRun.misses_iff (stopped i hi))
  exact ⟨mergeGroups_eq_self_iff _, (mergeGroups_eq_self_iff _).trans missed.symm⟩

/-- Groups of constants under a stem and two longer ones, neither of which starts with the other. -/
def siblings : Groups := [("A", [⟨"A_1", 1⟩, ⟨"A_2", 2⟩]), ("A_B", [⟨"A_B_3", 3⟩, ⟨"A_B_4", 4⟩]),
  ("A_C", [⟨"A_C_5", 5⟩, ⟨"A_C_6", 6⟩])]

/-- It takes a second pass to merge `A_C` into `A`, when `A_B` no longer stands between them. -/
theorem mergeGroups_siblings :
    ¬ ∀ groups : Groups, (groups.map (·.1)).Pairwise (· < ·) →
      mergeGroups (mergeGroups groups) = mergeGroups groups := by
  intro h
  exact absurd (h siblings (by decide +kernel)) (by decide +kernel)

end ConstLookup
