import ConstLookup.Table.StemGroup
import Mathlib.Data.List.Nodup

/-!
  Grouping by stem loses no constant and invents none: the members of all groups together with
  the residual constants are the input, up to order (`groupByStem_perm`). Lifting changes stems
  only, and a settled constant is filed under one stem or under none. No stem is left with a
  single member (`Filed.count_settle_ne_one`). Merging groups keeps all members in place
  (`mergeGroups_members`).
-/

namespace ConstLookup

namespace Filed

theorem map_member_lift (stem : List Char) (fs : List Filed) :
    (lift stem fs).map Filed.member = fs.map Filed.member := by
  rw [lift, List.map_map]
  refine List.map_congr_left fun f _ => ?_
  rw [Function.comp_apply]
  split <;> rfl

theorem map_member_liftAll (fs : List Filed) :
    (liftAll fs).map Filed.member = fs.map Filed.member := by
  unfold liftAll
  generalize lonely fs = stems
  induction stems generalizing fs with
  | nil => rfl
  | cons stem stems ih =>
    rw [List.foldl_cons, ih, liftLonely]
    split
    · exact map_member_lift stem fs
    · rfl

/-- Lifting moves constants to other stems and nothing else. -/
theorem map_member_settle (fs : List Filed) : (settle fs).map Filed.member = fs.map Filed.member := by
  fun_induction settle fs with
  | case1 fs h => rfl
  | case2 fs h ih => rw [ih, map_member_liftAll]

theorem lonely_settle (fs : List Filed) : lonely (settle fs) = [] := by
  fun_induction settle fs with
  | case1 fs h => exact h
  | case2 fs h ih => exact ih

theorem count_eq_countP (stem : List Char) (fs : List Filed) :
    count stem fs = fs.countP (·.stem = some stem) := List.countP_eq_length_filter.symm

theorem count_pos {fs : List Filed} {f : Filed} (hf : f ∈ fs) {stem : List Char}
    (own : f.stem = some stem) : 0 < count stem fs :=
  List.length_pos_of_mem (List.mem_filter.mpr ⟨hf, decide_eq_true own⟩)

theorem mem_lonely {fs : List Filed} {stem : List Char} : stem ∈ lonely fs ↔ count stem fs = 1 := by
  rw [lonely, (List.mergeSort_perm _ _).mem_iff, List.mem_filter, decide_eq_true_eq,
    and_iff_right_iff_imp, count_eq_countP]
  intro one
  obtain ⟨f, hf, own⟩ := List.countP_pos_iff.mp (one ▸ Nat.one_pos)
  exact List.mem_filterMap.mpr ⟨f, hf, of_decide_eq_true own⟩

/-- A stem of settled constants has several members or none. -/
theorem count_settle_ne_one (stem : List Char) (fs : List Filed) : count stem (settle fs) ≠ 1 := by
  intro one
  have lonely := mem_lonely.mpr one
  rw [lonely_settle] at lonely
  exact List.not_mem_nil lonely

theorem map_member_start (values : List NamedValue) :
    (start values).map Filed.member = values := by
  rw [start, List.map_map]
  exact List.map_id values

theorem nodup_eraseDups (l : List (List Char)) : l.eraseDups.Nodup := by
  induction hn : l.length using Nat.strongRecOn generalizing l with
  | ind n ih =>
    cases l with
    | nil => simp
    | cons a l =>
      rw [List.eraseDups_cons]
      refine List.nodup_cons.mpr ⟨by simp [List.mem_eraseDups], ih _ ?_ _ rfl⟩
      have := List.length_filter_le (fun b => !b == a) l
      rw [← hn, List.length_cons]
      omega

theorem nodup_stems (fs : List Filed) : (stems fs).Nodup :=
  (List.mergeSort_perm _ _).nodup_iff.mpr (nodup_eraseDups _)

theorem mem_stems {fs : List Filed} {stem : List Char} :
    stem ∈ stems fs ↔ ∃ f ∈ fs, f.stem = some stem := by
  simp [stems, List.mem_eraseDups]

/-- A constant filed under one of the stems is a member of that group and of no other. -/
theorem flatMap_members_cons {stems : List (List Char)} (nodup : stems.Nodup) {f : Filed}
    {stem : List Char} (hf : f.stem = some stem) (mem : stem ∈ stems) (fs : List Filed) :
    (stems.flatMap fun s => members s (f :: fs)).Perm
      (f.member :: stems.flatMap fun s => members s fs) := by
  obtain ⟨before, after, rfl⟩ := List.append_of_mem mem
  have other {s : List Char} (hs : s ≠ stem) : members s (f :: fs) = members s fs := by
    rw [members, List.filter_cons_of_neg, members]
    simpa [hf] using Ne.symm hs
  have own : members stem (f :: fs) = f.member :: members stem fs := by
    rw [members, List.filter_cons_of_pos (by simp [hf]), List.map_cons, members]
  obtain ⟨apart, -⟩ := List.nodup_cons.mp (List.nodup_middle.mp nodup)
  have front : (before.flatMap fun s => members s (f :: fs)) =
      before.flatMap fun s => members s fs :=
    List.flatMap_congr fun s hs => other fun e => apart (e ▸ List.mem_append_left _ hs)
  have back : (after.flatMap fun s => members s (f :: fs)) =
      after.flatMap fun s => members s fs :=
    List.flatMap_congr fun s hs => other fun e => apart (e ▸ List.mem_append_right _ hs)
  rw [List.flatMap_append, List.flatMap_append, List.flatMap_cons, List.flatMap_cons, own, front,
    back]
  exact List.perm_middle

/-- Every constant is filed under one stem or under none. -/
theorem members_perm {stems : List (List Char)} (nodup : stems.Nodup) {fs : List Filed}
    (h : ∀ f ∈ fs, ∀ s, f.stem = some s → s ∈ stems) :
    ((stems.flatMap fun s => members s fs) ++ (fs.filter (·.stem.isNone)).map Filed.member).Perm
      (fs.map Filed.member) := by
  induction fs with
  | nil => simp [members]
  | cons f fs ih =>
    have rest := ih fun g hg => h g (List.mem_cons_of_mem f hg)
    cases hf : f.stem with
    | none =>
      have same (s : List Char) : members s (f :: fs) = members s fs := by
        rw [members, List.filter_cons_of_neg (by simp [hf]), members]
      simp only [same]
      rw [List.filter_cons_of_pos (by simp [hf])]
      exact List.perm_middle.trans (rest.cons _)
    | some stem =>
      rw [List.filter_cons_of_neg (by simp [hf])]
      exact ((flatMap_members_cons nodup hf (h f List.mem_cons_self stem hf) fs).append_right
        _).trans (rest.cons _)

end Filed

/-- No constant is lost or invented. -/
theorem groupByStem_perm (values : List NamedValue) :
    ((groupByStem values).1.flatMap (·.2) ++ (groupByStem values).2).Perm values := by
  have settled := Filed.members_perm (Filed.nodup_stems (Filed.settle (Filed.start values)))
    fun f hf s hs => Filed.mem_stems.mpr ⟨f, hf, hs⟩
  rw [Filed.map_member_settle, Filed.map_member_start] at settled
  rw [groupByStem, List.flatMap_map]
  exact settled

/-- A constant shares no stem with itself. -/
theorem groupByStem_singleton (c : NamedValue) : groupByStem [c] = ([], [c]) := by
  have members := (Filed.map_member_settle (Filed.start [c])).trans (Filed.map_member_start [c])
  have count (stem : List Char) := Filed.count_settle_ne_one stem (Filed.start [c])
  unfold groupByStem
  generalize Filed.settle (Filed.start [c]) = settled at members count
  obtain ⟨f, rfl, rfl⟩ := List.map_eq_singleton_iff.mp members
  have residual : f.stem = none := by
    refine Option.eq_none_iff_forall_ne_some.mpr fun stem own => count stem ?_
    simp [Filed.count, own]
  simp [Filed.stems, residual]

/-! ## Merging -/

theorem absorb_members (group : String × List NamedValue) (groups : Groups) :
    (absorb group groups).flatMap (·.2) = group.2 ++ groups.flatMap (·.2) := by
  cases groups with
  | nil => rfl
  | cons next rest =>
    rw [absorb]
    split
    · simp
    · rfl

theorem mergeGroups_cons (group : String × List NamedValue) (groups : Groups) :
    mergeGroups (group :: groups) = absorb group (mergeGroups groups) := rfl

theorem mergeGroups_members (groups : Groups) :
    (mergeGroups groups).flatMap (·.2) = groups.flatMap (·.2) := by
  induction groups with
  | nil => rfl
  | cons group groups ih => rw [mergeGroups_cons, absorb_members, List.flatMap_cons, ih]

end ConstLookup
