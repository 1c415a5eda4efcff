import ConstLookup.Proofs.Table.DefaultSplit
import Mathlib.Algebra.Order.BigOperators.Group.List
import Mathlib.Algebra.Order.Ring.Nat
import Mathlib.Data.List.Infix
import Mathlib.Data.List.MinMax
import Mathlib.Data.List.Perm.Subperm
import Mathlib.Order.Bounds.Basic

/-!
  How many subsets a split has. An element starts a subset if and only if its key is in the last
  one, since the older subsets have all keys of that (`length_foldl_addBy`). Between two starts the
  keys are distinct, so there are as many subsets as consecutive pieces of distinct keys, when each
  piece is as long as possible. No other cut has fewer pieces (`length_piecesFrom_le`).

  Subsets at any places of a list can be fewer: as many as the largest number of members that share
  one value (`mostShared_least`), with the first members of all values in one subset, the second
  ones in another, and so on (`rankPlaces`). A split has that many if and only if so many
  consecutive pieces suffice (`splitDefault_fewest`). They do not where equal values come in
  pairs (`splitDefault_paired`).
-/

namespace ConstLookup

section Key

variable {α : Type} {key : α → Int}

/-! ## Consecutive pieces -/

/-- Cut a list after `run` into consecutive pieces: a piece ends where its next element has a key
that is in it already. -/
def piecesFrom (key : α → Int) (run : List α) : List α → List (List α)
  | [] => [run]
  | a :: l =>
    if key a ∈ run.map key then run :: piecesFrom key [a] l else piecesFrom key (run ++ [a]) l

/-- Consecutive pieces of distinct keys, each as long as possible. -/
def pieces (key : α → Int) : List α → List (List α)
  | [] => []
  | a :: l => piecesFrom key [a] l

/-- The list is cut into consecutive pieces of distinct keys. -/
structure IsCut (key : α → Int) (l : List α) (parts : List (List α)) : Prop where
  flatten : parts.flatten = l
  distinct : ∀ p ∈ parts, (p.map key).Nodup

theorem piecesFrom_isCut {run : List α} (h : (run.map key).Nodup) (l : List α) :
    IsCut key (run ++ l) (piecesFrom key run l) := by
  induction l generalizing run with
  | nil => exact ⟨by simp [piecesFrom], by simpa [piecesFrom] using h⟩
  | cons a l ih =>
    rw [piecesFrom]
    split
    · have rest := @ih [a] (List.nodup_singleton (key a))
      exact ⟨congrArg (run ++ ·) rest.flatten, List.forall_mem_cons.mpr ⟨h, rest.distinct⟩⟩
    · next fresh =>
      rw [List.append_cons]
      exact ih (nodup_map_append_singleton h fresh)

theorem pieces_isCut (l : List α) : IsCut key l (pieces key l) := by
  cases l with
  | nil => exact ⟨rfl, nofun⟩
  | cons a l => exact @piecesFrom_isCut α key [a] (List.nodup_singleton (key a)) l

/-- A part of distinct keys has no room for a run and an element behind it whose key is in the
run. -/
theorem suffix_of_repeated {run l p rest : List α} {a : α} (once : (p.map key).Nodup)
    (again : key a ∈ run.map key) (ends : run ++ a :: l <:+ p ++ rest) : a :: l <:+ rest := by
  rcases List.suffix_or_suffix_of_suffix ((List.suffix_append run _).trans ends)
    (List.suffix_append p rest) with later | ⟨more, whole⟩
  · exact later
  · cases more with
    | nil => exact whole ▸ List.suffix_refl _
    | cons b more =>
      obtain ⟨rfl, rfl⟩ := List.cons.inj whole
      obtain ⟨before, whole⟩ := ends
      have same : before ++ (run ++ b :: more) ++ rest = p ++ rest := by simpa using whole
      rw [← List.append_cancel_right same, List.map_append, List.map_append] at once
      have apart := (List.nodup_append.mp (List.nodup_append.mp once).2.1).2.2
      exact absurd rfl (apart _ again _ List.mem_cons_self)

/-- No parts of distinct keys that end with a list are fewer than the pieces of the list. -/
theorem length_piecesFrom_le {run l : List α} {parts : List (List α)} (some : run ≠ [])
    (distinct : ∀ p ∈ parts, (p.map key).Nodup) (ends : run ++ l <:+ parts.flatten) :
    (piecesFrom key run l).length ≤ parts.length := by
  have first : parts ≠ [] := by
    rintro rfl
    exact some (List.append_eq_nil_iff.mp (List.suffix_nil.mp ends)).1
  induction l generalizing run parts with
  | nil => exact List.length_pos_iff.mpr first
  | cons a l ih =>
    rw [piecesFrom]
    split
    · next again =>
      obtain ⟨p, ps, rfl⟩ := List.exists_cons_of_ne_nil first
      obtain ⟨once, distinct⟩ := List.forall_mem_cons.mp distinct
      have later := suffix_of_repeated once again (List.flatten_cons ▸ ends)
      refine Nat.succ_le_succ (ih (List.cons_ne_nil a []) distinct later ?_)
      rintro rfl
      exact List.cons_ne_nil a l (List.suffix_nil.mp later)
    · rw [List.append_cons] at ends
      exact ih (List.append_ne_nil_of_right_ne_nil run (List.cons_ne_nil a [])) distinct ends first

/-- The pieces are as few as consecutive pieces of distinct keys can be. -/
theorem pieces_least (l : List α) :
    IsLeast {k | ∃ parts, IsCut key l parts ∧ parts.length = k} (pieces key l).length := by
  refine ⟨⟨_, pieces_isCut l, rfl⟩, ?_⟩
  rintro k ⟨parts, cut, rfl⟩
  cases l with
  | nil => exact Nat.zero_le _
  | cons a l =>
    have ends : [a] ++ l <:+ parts.flatten := cut.flatten ▸ List.suffix_refl _
    exact length_piecesFrom_le (List.cons_ne_nil a []) cut.distinct ends

/-! ## Splitting opens a subset for each piece -/

/-- If the older subsets have all keys of the last one, then an element that is not in the last one
goes into that, and one that is in it opens a new one. -/
theorem length_foldl_addBy {older : List (List α)} {run : List α}
    (h : ∀ s ∈ older, run.map key ⊆ s.map key) (l : List α) :
    (l.foldl (addBy key) (older ++ [run])).length =
      older.length + (piecesFrom key run l).length := by
  induction l generalizing older run with
  | nil => simp [piecesFrom]
  | cons a l ih =>
    rw [List.foldl_cons, piecesFrom]
    split
    · next again =>
      have all : ∀ s ∈ older ++ [run], key a ∈ s.map key :=
        List.forall_mem_append.mpr ⟨fun s hs => h s hs again, List.forall_mem_singleton.mpr again⟩
      have keys : ∀ s ∈ older ++ [run], [a].map key ⊆ s.map key :=
        fun s hs => List.cons_subset.mpr ⟨all s hs, List.nil_subset _⟩
      rw [addBy_of_all all, ih keys, List.length_append, List.length_singleton, List.length_cons,
        Nat.add_assoc, Nat.add_comm 1]
    · next fresh =>
      rw [addBy_of_lacks (List.mem_append_right older List.mem_cons_self) fresh, List.map_append,
        List.map_singleton, if_neg fresh, ih, List.length_map]
      refine List.forall_mem_map.mpr fun s hs => ?_
      rw [List.map_append, List.map_singleton, List.append_subset, List.cons_subset]
      split
      · next has => exact ⟨h s hs, has, List.nil_subset _⟩
      · rw [List.map_append]
        exact ⟨List.subset_append_of_subset_left _ (h s hs), by simp, List.nil_subset _⟩

theorem length_splitBy (l : List α) : (splitBy key l).length = (pieces key l).length := by
  cases l with
  | nil => rfl
  | cons a l =>
    have count := @length_foldl_addBy α key [] [a] nofun l
    rw [List.length_nil, Nat.zero_add] at count
    exact count

/-! ## Subsets at any places -/

/-- Elements with one key are in different subsets. -/
theorem count_le_length {places : List (List α)} (distinct : ∀ p ∈ places, (p.map key).Nodup)
    {l : List α} (nodup : l.Nodup) (complete : ∀ a ∈ l, ∃ p ∈ places, a ∈ p) (v : Int) :
    (l.map key).count v ≤ places.length := by
  have some : l ⊆ places.flatten := fun a ha => List.mem_flatten.mpr (complete a ha)
  calc (l.map key).count v
    _ ≤ (places.flatten.map key).count v := by
      simp only [List.count_eq_countP, List.countP_map]
      exact (List.subperm_of_subset nodup some).countP_le _
    _ = (places.map fun p => (p.map key).count v).sum := by
      rw [List.map_flatten, List.count_flatten, List.map_map]
      rfl
    _ ≤ places.length := by
      have one : ∀ n ∈ places.map fun p => (p.map key).count v, n ≤ 1 :=
        List.forall_mem_map.mpr fun p hp => List.nodup_iff_count_le_one.mp (distinct p hp) v
      simpa using List.sum_le_card_nsmul _ 1 one

end Key

/-- Subsets of distinct values at places of a list, with every place in some of them. -/
structure IsCover (members : List NamedValue) (places : List (List (Fin members.length))) :
    Prop where
  distinct : ∀ p ∈ places, (p.map fun i => (members.get i).value).Nodup
  complete : ∀ i, ∃ p ∈ places, i ∈ p

/-- The largest number of members that share one value. -/
def mostShared (members : List NamedValue) : Nat :=
  let values := members.map (·.value)
  (values.map values.count).foldr max 0

theorem count_le_mostShared (members : List NamedValue) (m : NamedValue) (hm : m ∈ members) :
    (members.map (·.value)).count m.value ≤ mostShared members :=
  List.le_max_of_le (List.mem_map_of_mem (List.mem_map_of_mem hm)) (Nat.le_refl _)

theorem mostShared_le {members : List NamedValue} {k : Nat}
    (h : ∀ v, (members.map (·.value)).count v ≤ k) : mostShared members ≤ k :=
  List.max_le_of_forall_le _ k (List.forall_mem_map.mpr fun v _ => h v)

theorem IsCover.mostShared_le {members : List NamedValue}
    {places : List (List (Fin members.length))} (h : IsCover members places) :
    mostShared members ≤ places.length := by
  refine ConstLookup.mostShared_le fun v => ?_
  have count := count_le_length h.distinct (List.nodup_finRange _) (fun i _ => h.complete i) v
  have same : (List.finRange members.length).map (fun i => (members.get i).value) =
      members.map (·.value) := by
    conv => rhs; rw [← List.map_get_finRange members, List.map_map]
    rfl
  rwa [same] at count

/-- A value comes more often up to a later place. -/
theorem count_take_lt {values : List Int} {i j : Nat} (hi : i < values.length) (lt : i < j) :
    (values.take i).count values[i] < (values.take j).count values[i] := by
  have next : (values.take (i + 1)).count values[i] = (values.take i).count values[i] + 1 := by
    rw [List.take_succ_eq_append_getElem hi, List.count_append, List.count_singleton_self]
  calc (values.take i).count values[i]
    _ < (values.take (i + 1)).count values[i] := (Nat.lt_succ_self _).trans_eq next.symm
    _ ≤ (values.take j).count values[i] := (List.take_prefix_take_left lt).sublist.count_le _

/-- How many members before a place have the value there. -/
def rank (members : List NamedValue) (i : Fin members.length) : Nat :=
  ((members.map (·.value)).take i).count (members.get i).value

theorem rank_lt_rank {members : List NamedValue} {i j : Fin members.length} (lt : i < j)
    (same : (members.get i).value = (members.get j).value) : rank members i < rank members j := by
  have hi : (i : Nat) < (members.map (·.value)).length := by simp
  have count := count_take_lt hi lt
  rw [List.getElem_map] at count
  rw [rank, rank, ← same]
  exact count

theorem rank_lt_mostShared (members : List NamedValue) (i : Fin members.length) :
    rank members i < mostShared members := by
  have hi : (i : Nat) < (members.map (·.value)).length := by simp
  have count := count_take_lt hi hi
  rw [List.getElem_map, List.take_length] at count
  exact count.trans_le (count_le_mostShared members _ (List.get_mem members i))

/-- One subset for each rank. -/
def rankPlaces (members : List NamedValue) : List (List (Fin members.length)) :=
  (List.range (mostShared members)).map fun r =>
    (List.finRange members.length).filter fun i => rank members i = r

theorem rankPlaces_isCover (members : List NamedValue) :
    IsCover members (rankPlaces members) where
  distinct p hp := by
    obtain ⟨r, -, rfl⟩ := List.mem_map.mp hp
    refine ((List.nodup_finRange _).filter _).map_on fun i hi j hj same => ?_
    have ranks : rank members i = rank members j := by
      rw [of_decide_eq_true (List.mem_filter.mp hi).2, of_decide_eq_true (List.mem_filter.mp hj).2]
    rcases lt_trichotomy i j with lt | eq | lt
    · exact absurd ranks (rank_lt_rank lt same).ne
    · exact eq
    · exact absurd ranks (rank_lt_rank lt same.symm).ne'
  complete i :=
    ⟨_, List.mem_map_of_mem (List.mem_range.mpr (rank_lt_mostShared members i)),
      List.mem_filter.mpr ⟨List.mem_finRange i, decide_eq_true rfl⟩⟩

/-- The fewest subsets of distinct values that cover a list. -/
theorem mostShared_least (members : List NamedValue) :
    IsLeast {k | ∃ places, IsCover members places ∧ places.length = k} (mostShared members) := by
  refine ⟨⟨_, rankPlaces_isCover members, by simp [rankPlaces]⟩, ?_⟩
  rintro k ⟨places, cover, rfl⟩
  exact cover.mostShared_le

theorem splitPlaces_isCover (members : List NamedValue) :
    IsCover members (splitPlaces members) where
  distinct := (splitPlaces_covers members).distinct
  complete i := (splitPlaces_covers members).complete i (List.mem_finRange i)

/-- A split has as many subsets as the list has consecutive pieces of distinct values, when these
are as few as they can be. Subsets of distinct values that cover the list are as few as the largest
number of members that share one value. A split has no fewer than that; it has just as many if and
only if the list can be cut into so many pieces. -/
theorem splitDefault_fewest (members : List NamedValue) :
    IsLeast {k | ∃ parts, IsCut (·.value) members parts ∧ parts.length = k}
      (splitDefault members).length ∧
    IsLeast {k | ∃ places, IsCover members places ∧ places.length = k} (mostShared members) ∧
    mostShared members ≤ (splitDefault members).length ∧
    ((splitDefault members).length = mostShared members ↔
      ∃ parts, IsCut (·.value) members parts ∧ parts.length = mostShared members) := by
  have least : IsLeast {k | ∃ parts, IsCut (·.value) members parts ∧ parts.length = k}
      (splitDefault members).length := by
    rw [splitDefault_eq_splitBy, length_splitBy]
    exact pieces_least members
  have enough : mostShared members ≤ (splitDefault members).length := by
    rw [← map_splitPlaces, List.length_map]
    exact (splitPlaces_isCover members).mostShared_le
  refine ⟨least, mostShared_least members, enough, fun same => same ▸ least.1, fun cut => ?_⟩
  exact Nat.le_antisymm (least.2 cut) enough

/-- Two values come twice each, one after the other. The first constant with the second value goes
into both subsets, so the last one starts a third, where two are enough. -/
theorem splitDefault_paired :
    ¬ ∀ members : List NamedValue,
      IsLeast {k | ∃ places, IsCover members places ∧ places.length = k}
        (splitDefault members).length := by
  intro h
  have least := h [⟨"A", 1⟩, ⟨"B", 1⟩, ⟨"C", 2⟩, ⟨"D", 2⟩]
  have two : IsCover [⟨"A", 1⟩, ⟨"B", 1⟩, ⟨"C", 2⟩, ⟨"D", 2⟩] [[0, 2], [1, 3]] :=
    ⟨by decide, by decide⟩
  exact absurd (least.2 ⟨_, two, rfl⟩) (by decide)

end ConstLookup
