import ConstLookup.Table.Collision

/-!
  Grouping constants by a shared stem of their names: `PF_X`, `PF_W` and `PF_R` form `PF`. Every
  constant starts under its own name. As long as some stem has a single member, that member moves
  to the stem cut at its last underscore, or to the residual constants if there is no underscore.
-/

namespace ConstLookup

open ConstLookup.Text

/-- A constant with the stem it is filed under; without a stem it is residual. -/
structure Filed where
  member : NamedValue
  stem : Option (List Char)

/-- Groups of constants by stem. -/
abbrev Groups := List (String × List NamedValue)

namespace Filed

/-- Number of constants filed under `stem`. -/
def count (stem : List Char) (fs : List Filed) : Nat := (fs.filter (·.stem = some stem)).length

/-- Move the constants filed under `stem` to the shorter stem. -/
def lift (stem : List Char) (fs : List Filed) : List Filed :=
  fs.map fun f => if f.stem = some stem then { f with stem := beforeUnderscore? stem } else f

/-- Stems with a single member, in increasing order. -/
def lonely (fs : List Filed) : List (List Char) :=
  let single := (fs.filterMap (·.stem)).filter fun stem => count stem fs = 1
  single.mergeSort fun a b => !decide (b < a)

/-- Lift a stem if it still has a single member. -/
def liftLonely (fs : List Filed) (stem : List Char) : List Filed :=
  if count stem fs = 1 then lift stem fs else fs

/-- Lift every stem that has a single member when the pass begins. -/
def liftAll (fs : List Filed) : List Filed := (lonely fs).foldl liftLonely fs

/-- How far a constant can still be lifted. -/
def weight (f : Filed) : Nat :=
  match f.stem with
  | some stem => stem.length + 1
  | none => 0

/-- How far the constants of a list can still be lifted. -/
def totalWeight : List Filed → Nat
  | [] => 0
  | f :: fs => weight f + totalWeight fs

theorem length_beforeUnderscore?_lt {cs before : List Char}
    (h : beforeUnderscore? cs = some before) : before.length < cs.length := by
  unfold beforeUnderscore? at h
  split at h
  · cases h
  · next c r e =>
    cases h
    have := (List.dropWhile_suffix (fun x => decide (x ≠ '_')) (l := cs.reverse)).length_le
    rw [e] at this
    simp only [List.length_cons, List.length_reverse] at this
    simp only [List.length_reverse]
    omega

theorem weight_lift_le (stem : List Char) (f : Filed) :
    weight (if f.stem = some stem then { f with stem := beforeUnderscore? stem } else f)
      ≤ weight f := by
  split
  · next h =>
    simp only [weight, h]
    split
    · next e => have := length_beforeUnderscore?_lt e; omega
    · omega
  · exact Nat.le_refl _

theorem totalWeight_lift_le (stem : List Char) (fs : List Filed) :
    totalWeight (lift stem fs) ≤ totalWeight fs := by
  induction fs with
  | nil => exact Nat.le_refl _
  | cons f fs ih =>
    have := weight_lift_le stem f
    simp only [totalWeight, lift, List.map_cons] at ih ⊢
    omega

theorem totalWeight_lift_lt {stem : List Char} {fs : List Filed} (h : 0 < count stem fs) :
    totalWeight (lift stem fs) < totalWeight fs := by
  induction fs with
  | nil => simp [count] at h
  | cons f fs ih =>
    have hf := weight_lift_le stem f
    have hfs := totalWeight_lift_le stem fs
    simp only [totalWeight, lift, List.map_cons] at ih hf hfs ⊢
    by_cases e : f.stem = some stem
    · have : weight { f with stem := beforeUnderscore? stem } < weight f := by
        simp only [weight, e]
        split
        · next e' => have := length_beforeUnderscore?_lt e'; omega
        · omega
      rw [if_pos e] at hf ⊢
      omega
    · have := ih (by simpa [count, e] using h)
      rw [if_neg e] at hf ⊢
      omega

theorem totalWeight_foldl_le (stems : List (List Char)) (fs : List Filed) :
    totalWeight (stems.foldl liftLonely fs) ≤ totalWeight fs := by
  induction stems generalizing fs with
  | nil => exact Nat.le_refl _
  | cons s stems ih =>
    refine Nat.le_trans (ih _) ?_
    unfold liftLonely
    split
    · exact totalWeight_lift_le s fs
    · exact Nat.le_refl _

theorem totalWeight_liftAll_lt {fs : List Filed} (h : lonely fs ≠ []) :
    totalWeight (liftAll fs) < totalWeight fs := by
  unfold liftAll
  match e : lonely fs with
  | [] => exact absurd e h
  | s :: stems =>
    have hs : s ∈ lonely fs := by rw [e]; exact List.mem_cons_self
    have hc : count s fs = 1 := by
      have := (List.mergeSort_perm _ _).mem_iff.mp hs
      simpa using (List.mem_filter.mp this).2
    refine Nat.lt_of_le_of_lt (totalWeight_foldl_le stems _) ?_
    rw [liftLonely, if_pos hc]
    exact totalWeight_lift_lt (by omega)

/-- Lift single members until no stem has one. -/
def settle (fs : List Filed) : List Filed :=
  if lonely fs = [] then fs else settle (liftAll fs)
termination_by totalWeight fs
decreasing_by rename_i h; exact totalWeight_liftAll_lt h

/-- Every constant under its own name. -/
def start (values : List NamedValue) : List Filed :=
  values.map fun v => { member := v, stem := some v.name.toList }

/-- The stems in use, in increasing order. -/
def stems (fs : List Filed) : List (List Char) :=
  (fs.filterMap (·.stem)).eraseDups.mergeSort fun a b => !decide (b < a)

/-- The constants filed under `stem`, in their order. -/
def members (stem : List Char) (fs : List Filed) : List NamedValue :=
  (fs.filter (·.stem = some stem)).map (·.member)

end Filed

/-- Group constants by stem: the groups in the order of their stems, and the constants that
share no stem with another. Members keep their order. -/
def groupByStem (values : List NamedValue) : Groups × List NamedValue :=
  let settled := Filed.settle (Filed.start values)
  ((Filed.stems settled).map fun stem => (String.ofList stem, Filed.members stem settled),
    (settled.filter (·.stem.isNone)).map (·.member))

/-- No value occurs in both lists. -/
def disjointValues (a b : List NamedValue) : Bool :=
  a.all fun x => b.all fun y => x.value ≠ y.value

/-- Put a group before others, absorbing the first of them if its stem extends the stem of the
group and they share no value. -/
def absorb (group : String × List NamedValue) : Groups → Groups
  | [] => [group]
  | next :: rest =>
    if group.1.toList.isPrefixOf next.1.toList && disjointValues group.2 next.2 then
      (group.1, group.2 ++ next.2) :: rest
    else group :: next :: rest

/-- Merge every group into the one before it if its stem extends that group's and they share no
value, from the last group to the first. -/
def mergeGroups (groups : Groups) : Groups := groups.foldr absorb []

end ConstLookup
