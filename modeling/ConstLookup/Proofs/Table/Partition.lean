import ConstLookup.Proofs.Table.Collision
import ConstLookup.Proofs.Table.StemGroup
import Mathlib.Logic.Function.Iterate

/-!
  Grouping by stem ends and is a partition (`groupByStem_partition`). What lifting a single member
  keeps holds of the settled constants (`settle_invariant`); in particular every stem is the
  name of its constant or is followed by an underscore there. Each pass makes the constants
  lighter, so their weight bounds the number of passes (`exists_passes`).
-/

namespace ConstLookup

namespace Filed

/-! ## Passes -/

/-- What lifting a single member keeps, a pass keeps. -/
theorem liftAll_invariant {P : List Filed → Prop}
    (lifts : ∀ fs stem, count stem fs = 1 → P fs → P (lift stem fs)) {fs : List Filed}
    (start : P fs) : P (liftAll fs) := by
  unfold liftAll
  generalize lonely fs = stems
  induction stems generalizing fs with
  | nil => exact start
  | cons stem stems ih =>
    refine ih ?_
    unfold liftLonely
    split
    · next one => exact lifts fs stem one start
    · exact start

/-- What lifting a single member keeps holds of the settled constants. -/
theorem settle_invariant {P : List Filed → Prop}
    (lifts : ∀ fs stem, count stem fs = 1 → P fs → P (lift stem fs)) {fs : List Filed}
    (start : P fs) : P (settle fs) := by
  fun_induction settle fs with
  | case1 fs done => exact start
  | case2 fs more ih => exact ih (liftAll_invariant lifts start)

/-- Constants are settled after as many passes as they can be lifted, or less. -/
theorem exists_passes (fs : List Filed) : ∃ n ≤ totalWeight fs, liftAll^[n] fs = settle fs := by
  fun_induction settle fs with
  | case1 fs done => exact ⟨0, Nat.zero_le _, rfl⟩
  | case2 fs more ih =>
    obtain ⟨n, le, passes⟩ := ih
    exact ⟨n + 1, Nat.lt_of_le_of_lt le (totalWeight_liftAll_lt more), passes⟩

/-! ## Stems -/

/-- The name is the stem, or goes on after it with an underscore. -/
def Extends (name stem : List Char) : Prop := name = stem ∨ stem ++ ['_'] <+: name

theorem Extends.cut {name stem shorter : List Char} (h : Extends name stem)
    (cut : beforeUnderscore? stem = some shorter) : Extends name shorter := by
  obtain ⟨after, whole⟩ := beforeUnderscore?_eq_some cut
  have starts : shorter ++ ['_'] <+: stem := ⟨after, by rw [whole, List.append_assoc]; rfl⟩
  rcases h with rfl | longer
  · exact .inr starts
  · exact .inr (starts.trans ((List.prefix_append stem ['_']).trans longer))

/-- Every constant is filed under a stem of its name, if under any. -/
def WellFiled (fs : List Filed) : Prop :=
  ∀ f ∈ fs, ∀ stem, f.stem = some stem → Extends f.member.name.toList stem

theorem WellFiled.lift {fs : List Filed} (h : WellFiled fs) (stem : List Char) :
    WellFiled (lift stem fs) := by
  intro g hg shorter own
  obtain ⟨f, hf, rfl⟩ := List.mem_map.mp hg
  split at own
  · next same =>
    rw [if_pos same]
    exact (h f hf stem same).cut own
  · next other =>
    rw [if_neg other]
    exact h f hf shorter own

theorem wellFiled_settle (values : List NamedValue) : WellFiled (settle (start values)) := by
  refine settle_invariant (fun fs stem _ filed => filed.lift stem) ?_
  intro f hf stem own
  obtain ⟨v, -, rfl⟩ := List.mem_map.mp hf
  exact .inl (Option.some.inj own)

/-! ## Members -/

theorem sublist_of_filter (p : Filed → Bool) (values : List NamedValue) :
    (((settle (start values)).filter p).map Filed.member).Sublist values := by
  have whole := (map_member_settle (start values)).trans (map_member_start values)
  have part : (((settle (start values)).filter p).map Filed.member).Sublist
      ((settle (start values)).map Filed.member) := List.filter_sublist.map _
  rwa [whole] at part

theorem two_le_length_members {stem : List Char} {fs : List Filed}
    (h : stem ∈ stems (settle fs)) : 2 ≤ (members stem (settle fs)).length := by
  obtain ⟨f, hf, own⟩ := mem_stems.mp h
  have some := count_pos hf own
  have several := count_settle_ne_one stem fs
  rw [members, List.length_map]
  unfold count at some several
  omega

end Filed

/-- The stems of the groups are distinct. -/
theorem nodup_groupByStem (values : List NamedValue) :
    ((groupByStem values).1.map (·.1)).Nodup := by
  rw [groupByStem, List.map_map]
  exact (Filed.nodup_stems _).map fun a b same => String.ofList_injective same

/-- Grouping ends: after finitely many passes no stem has a single member. The members of all
groups and the residual constants are the input, up to order. Stems are distinct, every group has at
least two members, the name of a member is the stem of its group or goes on after it with an
underscore, and groups and residual constants keep the order of the input. -/
theorem groupByStem_partition (values : List NamedValue) :
    (∃ n ≤ Filed.totalWeight (Filed.start values),
      Filed.liftAll^[n] (Filed.start values) = Filed.settle (Filed.start values) ∧
        Filed.lonely (Filed.settle (Filed.start values)) = []) ∧
    ((groupByStem values).1.flatMap (·.2) ++ (groupByStem values).2).Perm values ∧
    ((groupByStem values).1.map (·.1)).Nodup ∧
    (∀ g ∈ (groupByStem values).1, 2 ≤ g.2.length ∧ g.2.Sublist values ∧
      ∀ m ∈ g.2, m.name = g.1 ∨ ∃ rest, m.name = g.1 ++ "_" ++ rest) ∧
    (groupByStem values).2.Sublist values := by
  refine ⟨?ends, groupByStem_perm values, nodup_groupByStem values, fun g hg => ?_,
    Filed.sublist_of_filter _ values⟩
  case ends =>
    obtain ⟨n, le, passes⟩ := Filed.exists_passes (Filed.start values)
    exact ⟨n, le, passes, Filed.lonely_settle _⟩
  obtain ⟨stem, hs, rfl⟩ := List.mem_map.mp hg
  refine ⟨Filed.two_le_length_members hs, Filed.sublist_of_filter _ values, fun m hm => ?_⟩
  obtain ⟨f, hf, rfl⟩ := List.mem_map.mp hm
  obtain ⟨filed, own⟩ := List.mem_filter.mp hf
  have named := Filed.wellFiled_settle values f filed stem (of_decide_eq_true own)
  rcases named with same | ⟨rest, whole⟩
  · exact .inl (String.toList_injective (by simpa using same))
  · exact .inr ⟨String.ofList rest, String.toList_injective (by simpa using whole.symm)⟩

end ConstLookup
