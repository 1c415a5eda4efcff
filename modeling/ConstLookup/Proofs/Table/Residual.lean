import ConstLookup.Proofs.Table.Partition
import ConstLookup.Proofs.Table.Reordering

/-!
  Which constants grouping leaves over (`groupByStem_residual_apart`). A pass lifts all stems with a
  single member at once (`liftAll_eq_map`): the stems are lifted in their order, and what is lifted
  moves to a smaller stem. So a constant that is in no group after `t` passes has climbed over `t`
  underscores of its name (`Climbed`). Two constants with equally many underscores climb side by
  side and meet under the longest stem of both, if nothing stopped them before. Constants with
  different numbers of underscores pass each other by: one has left the stem before the other one
  comes there (`residual_related`).
-/

namespace ConstLookup

open ConstLookup.Text

namespace Filed

/-! ## Underscores of a name -/

/-- Number of underscores of a text: how often it can be cut. -/
def depth (cs : List Char) : Nat := cs.count '_'

theorem depth_eq_zero_of_uncut {cs : List Char} (h : beforeUnderscore? cs = none) :
    depth cs = 0 := by
  unfold beforeUnderscore? at h
  split at h
  · next done =>
    have plain := List.dropWhile_eq_nil_iff.mp done
    refine List.count_eq_zero.mpr fun mem => ?_
    simpa using plain '_' (List.mem_reverse.mpr mem)
  · cases h

/-- A cut takes the last underscore away. -/
theorem depth_of_cut {cs before : List Char} (h : beforeUnderscore? cs = some before) :
    depth cs = depth before + 1 := by
  obtain ⟨after, plain, rfl⟩ := beforeUnderscore?_eq_some_last h
  rw [depth, depth, List.count_append, List.count_cons_self, List.count_eq_zero.mpr plain]

theorem Extends.starts {name stem : List Char} (h : Extends name stem) : stem <+: name := by
  rcases h with rfl | longer
  · exact List.prefix_refl name
  · exact (List.prefix_append stem ['_']).trans longer

/-- After a stem that is not the whole name comes an underscore. -/
theorem Extends.depth_lt {name stem longer : List Char} (h : Extends name stem)
    (starts : longer <+: name) (lt : stem.length < longer.length) : depth stem < depth longer := by
  have next : stem ++ ['_'] <+: longer := by
    rcases h with rfl | more
    · exact absurd starts.length_le (by omega)
    · refine List.prefix_of_prefix_length_le more starts ?_
      rw [List.length_append, List.length_singleton]
      exact lt
  have le := next.sublist.count_le '_'
  rw [List.count_append] at le
  exact Nat.lt_of_lt_of_le (Nat.lt_succ_self _) le

/-- The stems of a name are told apart by their underscores. -/
theorem Extends.eq_of_depth {name p q : List Char} (hp : Extends name p) (hq : Extends name q)
    (same : depth p = depth q) : p = q := by
  rcases Nat.lt_trichotomy p.length q.length with lt | eq | gt
  · exact absurd (hp.depth_lt hq.starts lt) (by omega)
  · exact (List.prefix_of_prefix_length_le hp.starts hq.starts (by omega)).eq_of_length eq
  · exact absurd (hq.depth_lt hp.starts gt) (by omega)

theorem Extends.depth_le {name stem : List Char} (h : Extends name stem) :
    depth stem ≤ depth name := h.starts.sublist.count_le '_'

/-! ## A pass at once -/

/-- No other constant is filed under the stem of this one. -/
def Alone (fs : List Filed) (f : Filed) : Prop := ∃ stem ∈ lonely fs, f.stem = some stem

instance (fs : List Filed) : DecidablePred (Alone fs) := fun f =>
  inferInstanceAs (Decidable (∃ stem ∈ lonely fs, f.stem = some stem))

/-- The constant under the shorter stem. -/
def raise (f : Filed) : Filed := { f with stem := f.stem.bind beforeUnderscore? }

theorem lift_eq_map (stem : List Char) (fs : List Filed) :
    lift stem fs = fs.map fun f => if f.stem = some stem then raise f else f := by
  refine List.map_congr_left fun f _ => ?_
  split
  · next own => rw [raise, own, Option.bind_some]
  · rfl

/-- A cut gives a smaller stem. -/
theorem cut_lt {stem shorter : List Char} (cut : beforeUnderscore? stem = some shorter) :
    shorter < stem := by
  by_contra le
  obtain ⟨after, whole⟩ := beforeUnderscore?_eq_some cut
  have starts : shorter <+: stem := ⟨_, whole.symm⟩
  have same : shorter = stem := List.le_antisymm starts.le le
  exact absurd (length_beforeUnderscore?_lt cut) (by rw [same]; exact Nat.lt_irrefl _)

/-- Lifting a stem leaves the counts of the stems after it. -/
theorem count_lift {stem other : List Char} (ne : other ≠ stem) (after : ¬ other < stem)
    (fs : List Filed) : count other (lift stem fs) = count other fs := by
  have cut : beforeUnderscore? stem ≠ some other := fun cut => after (cut_lt cut)
  rw [count_eq_countP, count_eq_countP, lift_eq_map, List.countP_map]
  refine List.countP_congr fun f _ => ?_
  simp only [Function.comp_apply, decide_eq_true_eq]
  split
  · next own => simp [raise, own, cut, Ne.symm ne]
  · rfl

/-- Lifting stems in their order is lifting them all at once. -/
theorem foldl_liftLonely {stems : List (List Char)} (sorted : stems.Pairwise fun a b => ¬ b < a)
    (nodup : stems.Nodup) {fs : List Filed} (single : ∀ s ∈ stems, count s fs = 1) :
    stems.foldl liftLonely fs =
      fs.map fun f => if ∃ s ∈ stems, f.stem = some s then raise f else f := by
  induction stems generalizing fs with
  | nil => simp
  | cons stem stems ih =>
    obtain ⟨least, sorted⟩ := List.pairwise_cons.mp sorted
    obtain ⟨new, nodup⟩ := List.nodup_cons.mp nodup
    have later : ∀ s ∈ stems, count s (lift stem fs) = 1 := fun s hs => by
      rw [count_lift (ne_of_mem_of_not_mem hs new) (least s hs)]
      exact single s (List.mem_cons_of_mem _ hs)
    rw [List.foldl_cons, liftLonely, if_pos (single stem List.mem_cons_self),
      ih sorted nodup later, lift_eq_map, List.map_map]
    refine List.map_congr_left fun f _ => ?_
    rw [Function.comp_apply]
    by_cases own : f.stem = some stem
    · -- what was lifted is not lifted again: its stem came before all that follow
      have stays : ¬ ∃ s ∈ stems, (raise f).stem = some s := by
        rintro ⟨s, hs, cut⟩
        rw [raise, own, Option.bind_some] at cut
        exact least s hs (cut_lt cut)
      rw [if_pos own, if_neg stays, if_pos ⟨stem, List.mem_cons_self, own⟩]
    · simp [own]

theorem sorted_lonely (fs : List Filed) : (lonely fs).Pairwise fun a b => ¬ b < a :=
  pairwise_mergeSort_stems _

theorem nodup_lonely (fs : List Filed) : (lonely fs).Nodup := by
  refine (List.mergeSort_perm _ _).nodup_iff.mpr (List.nodup_iff_count_le_one.mpr fun stem => ?_)
  by_cases one : count stem fs = 1
  · have same : fs.countP (fun f => f.stem == some stem) = count stem fs :=
      (List.countP_congr fun f _ => by simp).trans (count_eq_countP stem fs).symm
    rw [List.count_filter (by simpa using one), List.count_filterMap, same, one]
  · rw [List.count_eq_zero.mpr fun mem => one (by simpa using (List.mem_filter.mp mem).2)]
    exact Nat.zero_le _

/-- What a pass makes of a constant. -/
def lifted (fs : List Filed) (f : Filed) : Filed := if Alone fs f then raise f else f

/-- A pass lifts the constants that are alone under their stems when it begins. -/
theorem liftAll_eq_map (fs : List Filed) : liftAll fs = fs.map (lifted fs) :=
  foldl_liftLonely (sorted_lonely fs) (nodup_lonely fs) fun _ hs => mem_lonely.mp hs

/-! ## Constants in no group -/

section Free

variable {fs : List Filed} {f : Filed} {stem : List Char}

/-- The constant is in no group: it is residual, or alone under its stem. -/
def Free (fs : List Filed) (f : Filed) : Prop := ∀ stem, f.stem = some stem → count stem fs = 1

theorem free_of_residual (h : f.stem = none) : Free fs f := by
  intro stem own
  simp [h] at own

/-- A group has two members. -/
theorem two_le_count_iff :
    2 ≤ count stem fs ↔ ∃ f g, [f, g].Sublist fs ∧ f.stem = some stem ∧ g.stem = some stem := by
  constructor
  · intro several
    match h : fs.filter (·.stem = some stem) with
    | [] | [_] => simp [count, h] at several
    | f :: g :: rest =>
      have pair : [f, g].Sublist (fs.filter (·.stem = some stem)) :=
        h ▸ ((List.nil_sublist rest).cons_cons g).cons_cons f
      have own : ∀ x ∈ [f, g], x.stem = some stem := fun x hx => by
        simpa using (List.mem_filter.mp (pair.subset hx)).2
      exact ⟨f, g, pair.trans List.filter_sublist, own f (by simp), own g (by simp)⟩
  · rintro ⟨f, g, pair, hf, hg⟩
    rw [count_eq_countP]
    exact Nat.le_trans (by simp [hf, hg]) pair.countP_le

theorem lifted_of_free (free : Free fs f) : lifted fs f = raise f := by
  unfold lifted
  split
  · rfl
  · next crowd =>
    match own : f.stem with
    | some stem => exact absurd ⟨stem, mem_lonely.mpr (free stem own), own⟩ crowd
    | none =>
      obtain ⟨member, stem⟩ := f
      obtain rfl : stem = none := own
      rfl

/-- A pass leaves the members of a group where they are. -/
theorem lifted_of_count_ne_one (own : f.stem = some stem) (crowd : count stem fs ≠ 1) :
    lifted fs f = f := by
  refine if_neg ?_
  rintro ⟨s, hs, same⟩
  obtain rfl : stem = s := Option.some.inj (own.symm.trans same)
  exact crowd (mem_lonely.mp hs)

/-- A group stays a group. -/
theorem count_le_count_liftAll (crowd : count stem fs ≠ 1) :
    count stem fs ≤ count stem (liftAll fs) := by
  rw [count_eq_countP, count_eq_countP, liftAll_eq_map, List.countP_map]
  refine List.countP_mono_left fun f _ own => ?_
  rw [Function.comp_apply, lifted_of_count_ne_one (of_decide_eq_true own) crowd]
  exact own

/-- A constant in no group after a pass was in none before. -/
theorem free_of_lifted (hf : f ∈ fs) (free : Free (liftAll fs) (lifted fs f)) : Free fs f := by
  intro stem own
  by_contra crowd
  have one := free stem (by rwa [lifted_of_count_ne_one own crowd])
  have le := count_le_count_liftAll crowd
  have := count_pos hf own
  omega

/-- A constant under a stem without a group before the pass has just come there. -/
theorem free_of_arrived (hf : f ∈ fs) (few : count stem fs < 2)
    (here : (lifted fs f).stem = some stem) : Free fs f := by
  intro own hown
  by_contra crowd
  rw [lifted_of_count_ne_one hown crowd, hown] at here
  obtain rfl := Option.some.inj here
  have := count_pos hf hown
  omega

theorem exists_of_mem_liftAll {f' : Filed} (h : f' ∈ liftAll fs) : ∃ f ∈ fs, lifted fs f = f' := by
  rwa [liftAll_eq_map, List.mem_map] at h

theorem exists_of_pair_liftAll {f' g' : Filed} (h : [f', g'].Sublist (liftAll fs)) :
    ∃ f g, [f, g].Sublist fs ∧ lifted fs f = f' ∧ lifted fs g = g' := by
  rw [liftAll_eq_map, List.sublist_map_iff] at h
  obtain ⟨l, pair, same⟩ := h
  obtain ⟨f, rest, rfl, rfl, tail⟩ := List.map_eq_cons_iff.mp same.symm
  obtain ⟨g, rfl, rfl⟩ := List.map_eq_singleton_iff.mp tail
  exact ⟨f, g, pair, rfl, rfl⟩

end Free

/-! ## Climbing -/

/-- Number of underscores in the name of the constant. -/
def nameDepth (f : Filed) : Nat := depth f.member.name.toList

/-- The constants after `t` passes. -/
structure Climbed (t : Nat) (fs : List Filed) : Prop where
  filed : WellFiled fs
  /-- A constant alone under its stem has climbed over one underscore in each pass. -/
  height : ∀ f ∈ fs, Free fs f → ∀ stem, f.stem = some stem → f.nameDepth = t + depth stem
  /-- A residual constant had no underscore left. -/
  residual : ∀ f ∈ fs, f.stem = none → f.nameDepth < t
  /-- Two constants in no group with equally many underscores have not passed a stem of both. -/
  apart : ∀ f g, [f, g].Sublist fs → Free fs f → Free fs g → f.nameDepth = g.nameDepth →
    ∀ p, Extends f.member.name.toList p → Extends g.member.name.toList p →
      t + depth p ≤ f.nameDepth
  /-- Every group was begun by two constants with equally many underscores. -/
  level : ∀ stem, 2 ≤ count stem fs → ∃ f g, [f, g].Sublist fs ∧ f.stem = some stem ∧
    g.stem = some stem ∧ f.nameDepth = g.nameDepth

theorem climbed_start (values : List NamedValue) : Climbed 0 (start values) := by
  have own : ∀ f ∈ start values, f.stem = some f.member.name.toList := by
    intro f hf
    obtain ⟨v, -, rfl⟩ := List.mem_map.mp hf
    rfl
  constructor
  case filed =>
    intro f hf stem same
    exact .inl (Option.some.inj ((own f hf).symm.trans same))
  case height =>
    intro f hf _ stem same
    rw [nameDepth, Option.some.inj ((own f hf).symm.trans same), Nat.zero_add]
  case residual =>
    intro f hf done
    simp [own f hf] at done
  case apart =>
    intro f g _ _ _ _ p hp _
    rw [Nat.zero_add]
    exact hp.depth_le
  case level =>
    intro stem several
    obtain ⟨f, g, pair, hf, hg⟩ := two_le_count_iff.mp several
    have same : f.member.name.toList = g.member.name.toList := by
      have := own f (pair.subset (by simp))
      have := own g (pair.subset (by simp))
      simp_all
    exact ⟨f, g, pair, hf, hg, congrArg depth same⟩

@[simp] theorem member_lifted (fs : List Filed) (f : Filed) : (lifted fs f).member = f.member := by
  unfold lifted
  split <;> rfl

@[simp] theorem nameDepth_lifted (fs : List Filed) (f : Filed) :
    (lifted fs f).nameDepth = f.nameDepth := by
  rw [nameDepth, member_lifted, nameDepth]

namespace Climbed

variable {t : Nat} {fs : List Filed}

/-- After `t` passes a constant in no group is under the stem with `t` underscores less. -/
theorem stem_of_free (h : Climbed t fs) {f : Filed} (hf : f ∈ fs) (free : Free fs f)
    {p : List Char} (goes : Extends f.member.name.toList p) (here : t + depth p = f.nameDepth) :
    f.stem = some p := by
  match own : f.stem with
  | none => exact absurd (h.residual f hf own) (by omega)
  | some stem =>
    have height := h.height f hf free stem own
    rw [(h.filed f hf stem own).eq_of_depth goes (by omega)]

/-- Two constants in no group do not meet. -/
theorem not_here (h : Climbed t fs) {f g : Filed} (pair : [f, g].Sublist fs) (hf : Free fs f)
    (hg : Free fs g) (same : f.nameDepth = g.nameDepth) {p : List Char}
    (fp : Extends f.member.name.toList p) (gp : Extends g.member.name.toList p) :
    t + depth p ≠ f.nameDepth := by
  intro here
  have fstem := h.stem_of_free (pair.subset (by simp)) hf fp here
  have gstem := h.stem_of_free (pair.subset (by simp)) hg gp (here.trans same)
  have several := two_le_count_iff.mpr ⟨f, g, pair, fstem, gstem⟩
  have := hf p fstem
  omega

theorem height_lifted (h : Climbed t fs) {f : Filed} (hf : f ∈ fs) (free : Free fs f)
    {stem : List Char} (here : (lifted fs f).stem = some stem) :
    f.nameDepth = t + 1 + depth stem := by
  rw [lifted_of_free free, raise] at here
  obtain ⟨longer, own, cut⟩ := Option.bind_eq_some_iff.mp here
  have height := h.height f hf free longer own
  have := depth_of_cut cut
  omega

theorem residual_lifted (h : Climbed t fs) {f : Filed} (hf : f ∈ fs) (free : Free fs f)
    (done : (lifted fs f).stem = none) : f.nameDepth < t + 1 := by
  rw [lifted_of_free free, raise] at done
  match own : f.stem with
  | none => exact Nat.lt_succ_of_lt (h.residual f hf own)
  | some stem =>
    rw [own, Option.bind_some] at done
    have height := h.height f hf free stem own
    have := depth_eq_zero_of_uncut done
    omega

theorem level_lifted (h : Climbed t fs) {stem : List Char} (several : 2 ≤ count stem (liftAll fs)) :
    ∃ f g, [f, g].Sublist (liftAll fs) ∧ f.stem = some stem ∧ g.stem = some stem ∧
      f.nameDepth = g.nameDepth := by
  by_cases before : 2 ≤ count stem fs
  · obtain ⟨f, g, pair, hf, hg, same⟩ := h.level stem before
    have stays {x : Filed} (own : x.stem = some stem) : lifted fs x = x :=
      lifted_of_count_ne_one own (by omega)
    have moved := pair.map (lifted fs)
    rw [← liftAll_eq_map, List.map_cons, List.map_cons, List.map_nil, stays hf, stays hg] at moved
    exact ⟨f, g, moved, hf, hg, same⟩
  · -- a group is begun by constants that come to its stem in one pass
    obtain ⟨f', g', pair', hf', hg'⟩ := two_le_count_iff.mp several
    obtain ⟨f, g, pair, rfl, rfl⟩ := exists_of_pair_liftAll pair'
    have new {x : Filed} (hx : x ∈ fs) (here : (lifted fs x).stem = some stem) :
        x.nameDepth = t + 1 + depth stem :=
      h.height_lifted hx (free_of_arrived hx (Nat.lt_of_not_le before) here) here
    refine ⟨_, _, pair', hf', hg', ?_⟩
    rw [nameDepth_lifted, nameDepth_lifted, new (pair.subset (by simp)) hf',
      new (pair.subset (by simp)) hg']

/-- A pass takes every constant in no group over one more underscore. -/
theorem pass (h : Climbed t fs) : Climbed (t + 1) (liftAll fs) := by
  constructor
  case filed => exact liftAll_invariant (fun fs stem _ filed => filed.lift stem) h.filed
  case height =>
    intro f' hf' free stem own
    obtain ⟨f, hf, rfl⟩ := exists_of_mem_liftAll hf'
    rw [nameDepth_lifted]
    exact h.height_lifted hf (free_of_lifted hf free) own
  case residual =>
    intro f' hf' done
    obtain ⟨f, hf, rfl⟩ := exists_of_mem_liftAll hf'
    rw [nameDepth_lifted]
    exact h.residual_lifted hf (free_of_lifted hf (free_of_residual done)) done
  case apart =>
    intro f' g' pair' hf' hg' same p fp gp
    obtain ⟨f, g, pair, rfl, rfl⟩ := exists_of_pair_liftAll pair'
    rw [nameDepth_lifted, nameDepth_lifted] at same
    rw [member_lifted] at fp gp
    rw [nameDepth_lifted]
    have hf := free_of_lifted (pair.subset (by simp)) hf'
    have hg := free_of_lifted (pair.subset (by simp)) hg'
    have le := h.apart f g pair hf hg same p fp gp
    -- before the pass they were not at `p`, where they would be a group: they are at most there now
    have ne := h.not_here pair hf hg same fp gp
    omega
  case level => exact fun stem => h.level_lifted

end Climbed

theorem climbed_settle (values : List NamedValue) : ∃ t, Climbed t (settle (start values)) := by
  obtain ⟨n, -, passes⟩ := exists_passes (start values)
  refine ⟨n, passes ▸ ?_⟩
  clear passes
  induction n with
  | zero => exact climbed_start values
  | succ n ih =>
    rw [Function.iterate_succ_apply']
    exact ih.pass

end Filed

/-! ## Residual constants -/

/-- If the names have equally many underscores, they do not go on from a common stem. -/
def NamedValue.Apart (a b : NamedValue) : Prop :=
  Filed.depth a.name.toList = Filed.depth b.name.toList →
    ¬ ∃ stem, Filed.Extends a.name.toList stem ∧ Filed.Extends b.name.toList stem

/-- Two constants with equally many underscores and a common stem would have met there. -/
theorem pairwise_apart_residual (values : List NamedValue) :
    (groupByStem values).2.Pairwise NamedValue.Apart := by
  obtain ⟨t, climbed⟩ := Filed.climbed_settle values
  rw [groupByStem, List.pairwise_map, List.pairwise_filter, List.pairwise_iff_forall_sublist]
  intro f g pair hf hg same
  rw [Option.isNone_iff_eq_none] at hf hg
  rintro ⟨stem, fstem, gstem⟩
  have le := climbed.apart f g pair (Filed.free_of_residual hf) (Filed.free_of_residual hg) same
    stem fstem gstem
  have lt := climbed.residual f (pair.subset (by simp)) hf
  omega

/-- Two constants that do not climb side by side do not stop each other. -/
theorem groupByStem_pair {a b : NamedValue} (h : a.Apart b) :
    groupByStem [a, b] = ([], [a, b]) := by
  obtain ⟨t, climbed⟩ := Filed.climbed_settle [a, b]
  have count (stem : List Char) := Filed.count_settle_ne_one stem (Filed.start [a, b])
  have members := (Filed.map_member_settle (Filed.start [a, b])).trans
    (Filed.map_member_start [a, b])
  unfold groupByStem
  generalize Filed.settle (Filed.start [a, b]) = settled at climbed count members
  obtain ⟨f, rest, rfl, rfl, tail⟩ := List.map_eq_cons_iff.mp members
  obtain ⟨g, rfl, rfl⟩ := List.map_eq_singleton_iff.mp tail
  have residual : ∀ x ∈ [f, g], x.stem = none := by
    intro x hx
    refine Option.eq_none_iff_forall_ne_some.mpr fun stem own => ?_
    have several : 2 ≤ Filed.count stem [f, g] := by
      have := Filed.count_pos hx own
      have := count stem
      omega
    obtain ⟨y, z, pair, ystem, zstem, same⟩ := climbed.level stem several
    obtain ⟨rfl, rfl⟩ : y = f ∧ z = g := by simpa using pair.eq_of_length rfl
    exact h same ⟨stem, climbed.filed y (by simp) stem ystem, climbed.filed z (by simp) stem zstem⟩
  simp [Filed.stems, residual]

/-- No two residual constants have equally many underscores in their names and a common stem. More
cannot be said of two constants: where this holds of them, both are residual when there are no
others. -/
theorem groupByStem_residual_apart (values : List NamedValue) :
    (groupByStem values).2.Pairwise NamedValue.Apart ∧
    ∀ a b : NamedValue, groupByStem [a, b] = ([], [a, b]) ↔ a.Apart b := by
  refine ⟨pairwise_apart_residual values, fun a b => ⟨fun left => ?_, groupByStem_pair⟩⟩
  have pairwise := pairwise_apart_residual [a, b]
  rw [left] at pairwise
  exact List.rel_of_pairwise_cons pairwise (List.mem_singleton_self b)

/-- `A_C_D` reaches the stem `A` in the pass that takes `A_B` away from it. -/
theorem residual_related :
    ¬ ∀ values : List NamedValue, (values.map (·.name)).Nodup →
      (groupByStem values).2.Pairwise fun a b => ¬ ∃ stem ≠ [],
        Filed.Extends a.name.toList stem ∧ Filed.Extends b.name.toList stem := by
  intro h
  have left : groupByStem [⟨"A_B", 1⟩, ⟨"A_C_D", 2⟩] = ([], [⟨"A_B", 1⟩, ⟨"A_C_D", 2⟩]) :=
    groupByStem_pair fun same => absurd same (by decide)
  have unrelated := h [⟨"A_B", 1⟩, ⟨"A_C_D", 2⟩] (by decide)
  rw [left] at unrelated
  refine List.rel_of_pairwise_cons unrelated (List.mem_singleton_self _) ⟨['A'], by decide, ?_, ?_⟩
  · exact .inr ⟨['B'], rfl⟩
  · exact .inr ⟨['C', '_', 'D'], rfl⟩

end ConstLookup
