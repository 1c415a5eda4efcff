import ConstLookup.Proofs.Table.StemGroup

/-!
  Grouping by stem does not depend on the order of declaration (`groupByStem_reordered`). A pass
  lifts the stems with a single member in their order, and neither the stems nor their counts
  change when constants change places; so two runs over reordered constants stay reorderings of
  each other pass by pass (`settle_perm`). Merging looks at stems and values only.
-/

namespace ConstLookup

namespace Filed

variable {fs gs : List Filed}

/-- Stems are sorted in increasing order. -/
theorem pairwise_mergeSort_stems (l : List (List Char)) :
    (l.mergeSort fun x y => !decide (y < x)).Pairwise fun x y => ¬ y < x := by
  have le (x y : List Char) : (!decide (y < x)) = true ↔ ¬ y < x := by
    rw [Bool.not_eq_true', decide_eq_false_iff_not]
  simp only [← le]
  refine List.pairwise_mergeSort (fun x y z hxy hyz => ?_) (fun x y => ?_) l
  · rw [le] at hxy hyz ⊢
    exact List.le_trans hxy hyz
  · rw [Bool.or_eq_true, le, le]
    exact List.le_total x y

/-- The sorted list is the one in increasing order with the same stems. -/
theorem mergeSort_eq_of_pairwise {a b : List (List Char)} (h : a.Perm b)
    (sorted : b.Pairwise fun x y => ¬ y < x) : (a.mergeSort fun x y => !decide (y < x)) = b :=
  List.Perm.eq_of_pairwise (fun _ _ _ _ hxy hyx => List.le_antisymm hxy hyx)
    (pairwise_mergeSort_stems a) sorted ((List.mergeSort_perm a _).trans h)

/-- The stems of a list in increasing order depend on the list up to order only. -/
theorem mergeSort_eq_of_perm {a b : List (List Char)} (h : a.Perm b) :
    (a.mergeSort fun x y => !decide (y < x)) = b.mergeSort fun x y => !decide (y < x) :=
  mergeSort_eq_of_pairwise (h.trans (List.mergeSort_perm b _).symm) (pairwise_mergeSort_stems b)

theorem count_perm (h : fs.Perm gs) (stem : List Char) : count stem fs = count stem gs :=
  (h.filter _).length_eq

theorem lonely_perm (h : fs.Perm gs) : lonely fs = lonely gs := by
  unfold lonely
  simp only [count_perm h]
  exact mergeSort_eq_of_perm ((h.filterMap _).filter _)

theorem liftLonely_perm (h : fs.Perm gs) (stem : List Char) :
    (liftLonely fs stem).Perm (liftLonely gs stem) := by
  unfold liftLonely
  rw [count_perm h]
  split
  · exact h.map _
  · exact h

theorem liftAll_perm (h : fs.Perm gs) : (liftAll fs).Perm (liftAll gs) := by
  unfold liftAll
  rw [lonely_perm h]
  generalize lonely gs = stems
  induction stems generalizing fs gs with
  | nil => exact h
  | cons stem stems ih => exact ih (liftLonely_perm h stem)

/-- Constants in another order are settled under the same stems. -/
theorem settle_perm (h : fs.Perm gs) : (settle fs).Perm (settle gs) := by
  fun_induction settle fs generalizing gs with
  | case1 fs done =>
    rw [settle, if_pos (lonely_perm h ▸ done)]
    exact h
  | case2 fs more ih =>
    rw [settle.eq_def gs, if_neg (lonely_perm h ▸ more)]
    exact ih (liftAll_perm h)

/-- A pass after which no stem has a single member settles the constants. -/
theorem settle_of_pass (some : lonely fs ≠ []) (none : lonely (liftAll fs) = []) :
    settle fs = liftAll fs := by
  rw [settle, if_neg some, settle, if_pos none]

theorem stems_perm (h : fs.Perm gs) : stems fs = stems gs := by
  refine mergeSort_eq_of_perm ?_
  refine (List.perm_ext_iff_of_nodup (nodup_eraseDups _) (nodup_eraseDups _)).mpr fun stem => ?_
  rw [List.mem_eraseDups, List.mem_eraseDups, (h.filterMap _).mem_iff]

theorem members_perm_of_perm (h : fs.Perm gs) (stem : List Char) :
    (members stem fs).Perm (members stem gs) := (h.filter _).map _

end Filed

/-- The same stems, and under each the same members up to order. -/
def Groups.Same (a b : Groups) : Prop :=
  List.Forall₂ (fun g h => g.1 = h.1 ∧ g.2.Perm h.2) a b

/-! ## Merging -/

theorem disjointValues_perm {a a' b b' : List NamedValue} (ha : a.Perm a') (hb : b.Perm b') :
    disjointValues a b = disjointValues a' b' := by
  unfold disjointValues
  simp only [hb.all_eq]
  exact ha.all_eq

theorem Groups.Same.absorb {stem : String} {ms ms' : List NamedValue} (members : ms.Perm ms')
    {a b : Groups} (h : Groups.Same a b) :
    Groups.Same (ConstLookup.absorb (stem, ms) a) (ConstLookup.absorb (stem, ms') b) := by
  cases h with
  | nil => exact .cons ⟨rfl, members⟩ .nil
  | @cons next next' a b same rest =>
    obtain ⟨key, other⟩ := same
    unfold ConstLookup.absorb
    dsimp only
    rw [disjointValues_perm members other, key]
    split
    · exact .cons ⟨rfl, members.append other⟩ rest
    · exact .cons ⟨rfl, members⟩ (.cons ⟨key, other⟩ rest)

theorem Groups.Same.merge {a b : Groups} (h : Groups.Same a b) :
    Groups.Same (mergeGroups a) (mergeGroups b) := by
  induction h with
  | nil => exact .nil
  | @cons g g' a b same rest ih =>
    obtain ⟨stem, ms⟩ := g
    obtain ⟨stem', ms'⟩ := g'
    obtain ⟨rfl, members⟩ := same
    exact ih.absorb members

/-- Constants in another order form the same groups up to order, before and after merging, and
leave the same residual constants up to order. -/
theorem groupByStem_reordered {values values' : List NamedValue} (h : values.Perm values') :
    Groups.Same (groupByStem values).1 (groupByStem values').1 ∧
    (groupByStem values).2.Perm (groupByStem values').2 ∧
    Groups.Same (mergeGroups (groupByStem values).1) (mergeGroups (groupByStem values').1) := by
  have settled : (Filed.settle (Filed.start values)).Perm (Filed.settle (Filed.start values')) :=
    Filed.settle_perm (h.map _)
  have groups : Groups.Same (groupByStem values).1 (groupByStem values').1 := by
    unfold groupByStem Groups.Same
    dsimp only
    rw [Filed.stems_perm settled, List.forall₂_map_left_iff, List.forall₂_map_right_iff,
      List.forall₂_same]
    exact fun stem _ => ⟨rfl, Filed.members_perm_of_perm settled stem⟩
  exact ⟨groups, (settled.filter _).map _, groups.merge⟩

/-- Constants that one pass settles are grouped by the stems that are left. -/
theorem groupByStem_of_pass {values : List NamedValue} {single stems : List (List Char)}
    {settled : List Filed} (lonely : Filed.lonely (Filed.start values) = single)
    (some : single ≠ []) (pass : single.foldl Filed.liftLonely (Filed.start values) = settled)
    (none : Filed.lonely settled = []) (left : Filed.stems settled = stems) :
    groupByStem values =
      (stems.map fun stem => (String.ofList stem, Filed.members stem settled),
        (settled.filter (·.stem.isNone)).map (·.member)) := by
  have lifted : Filed.liftAll (Filed.start values) = settled := by rw [Filed.liftAll, lonely, pass]
  rw [groupByStem, Filed.settle_of_pass (lonely ▸ some) (lifted ▸ none), lifted, left]

/-- Members come in the order of declaration, so that is all that another order changes. -/
theorem groupByStem_swapped :
    let values : List NamedValue := [⟨"PF_X", 1⟩, ⟨"Z", 3⟩, ⟨"PF_W", 2⟩]
    let swapped : List NamedValue := [⟨"PF_W", 2⟩, ⟨"Z", 3⟩, ⟨"PF_X", 1⟩]
    values.Perm swapped ∧
    groupByStem values = ([("PF", [⟨"PF_X", 1⟩, ⟨"PF_W", 2⟩])], [⟨"Z", 3⟩]) ∧
    groupByStem swapped = ([("PF", [⟨"PF_W", 2⟩, ⟨"PF_X", 1⟩])], [⟨"Z", 3⟩]) ∧
    Groups.Same (groupByStem values).1 (groupByStem swapped).1 ∧
    (groupByStem values).2.Perm (groupByStem swapped).2 ∧
    Groups.Same (mergeGroups (groupByStem values).1) (mergeGroups (groupByStem swapped).1) := by
  intro values swapped
  have reversed : values.Perm swapped := List.reverse_perm swapped
  have sorted : ["PF_W".toList, "PF_X".toList, "Z".toList].Pairwise fun x y => ¬ y < x := by
    decide
  have nobody : [].Pairwise fun x y : List Char => ¬ y < x := List.Pairwise.nil
  have together : ["PF".toList].Pairwise fun x y => ¬ y < x := List.pairwise_singleton _ _
  refine ⟨reversed, ?_, ?_, groupByStem_reordered reversed⟩ <;>
    exact groupByStem_of_pass (Filed.mergeSort_eq_of_pairwise (by decide) sorted)
      (List.cons_ne_nil _ _) rfl (Filed.mergeSort_eq_of_pairwise (by decide) nobody)
      (Filed.mergeSort_eq_of_pairwise (by decide) together)

end ConstLookup
