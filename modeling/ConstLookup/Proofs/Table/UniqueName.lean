import ConstLookup.Proofs.Text.Digits
import ConstLookup.Table.Collision
import Mathlib.Data.Finset.Card
import Mathlib.Data.Finset.Dedup
import Mathlib.Data.List.Nodup
import Mathlib.Order.Bounds.Defs

/-!
  Names kept apart from used ones. The choices for a name have distinct upper cases, so at most as
  many of them are used as there are used names (`le_card_of_used`), and the name that is chosen is
  the first one that is not (`exists_uniqueName_eq`). A search that tries one choice after the other
  without any bound ends with that name (`search_iff`). Names that are chosen in turn are distinct
  without regard to case, and apart from those used before (`uniqueNames_distinct`).
-/

namespace ConstLookup

open ConstLookup.Text

/-! ## Choices for a name -/

/-- What the `n`-th choice for a name adds to it. -/
def choiceSuffix : Nat → List Char
  | 0 => []
  | n + 1 => '_' :: Nat.toDigits 10 (n + 2)

theorem choiceSuffix_injective {m n : Nat} (h : choiceSuffix m = choiceSuffix n) : m = n := by
  match m, n, h with
  | 0, 0, _ => rfl
  | m + 1, n + 1, h =>
    have same := toDigits_injective (List.cons.inj h).2
    omega

theorem toList_nameChoice (base : String) (n : Nat) :
    (nameChoice base n).toList = base.toList ++ choiceSuffix n := by
  cases n with
  | zero => simp [nameChoice, choiceSuffix]
  | succ n =>
    simp [nameChoice, choiceSuffix, toString, Nat.toList_repr]

theorem upperChar_of_isDigit {c : Char} (h : isDigit c = true) : upperChar c = [c] := by
  simp only [isDigit, Bool.and_eq_true, decide_eq_true_eq, Char.le_def,
    UInt32.le_iff_toNat_le] at h
  have le : c.toNat ≤ 57 := h.2
  have noLetter : ¬ ('a'.val ≤ c.val ∧ c.val ≤ 'z'.val) := by
    rintro ⟨ge, -⟩
    have : 97 ≤ c.toNat := UInt32.le_iff_toNat_le.mp ge
    omega
  have same : c.toUpper = c := dif_neg noLetter
  rw [upperChar, if_pos (by omega), same]

theorem upperChars_choiceSuffix (n : Nat) : upperChars (choiceSuffix n) = choiceSuffix n := by
  cases n with
  | zero => rfl
  | succ n =>
    have digits : ∀ c ∈ Nat.toDigits 10 (n + 2), upperChar c = [c] := fun c hc =>
      upperChar_of_isDigit (isDigit_of_mem_toDigits hc)
    have front : upperChar '_' = ['_'] := by decide
    rw [choiceSuffix, upperChars, List.flatMap_cons, front, List.flatMap_congr digits]
    simp

theorem toList_upper_nameChoice (base : String) (n : Nat) :
    (upper (nameChoice base n)).toList = upperChars base.toList ++ choiceSuffix n := by
  rw [upper, String.toList_ofList, toList_nameChoice, upperChars_append, upperChars_choiceSuffix]

theorem upper_nameChoice_injective {base : String} {m n : Nat}
    (h : upper (nameChoice base m) = upper (nameChoice base n)) : m = n := by
  have chars := congrArg String.toList h
  rw [toList_upper_nameChoice, toList_upper_nameChoice] at chars
  exact choiceSuffix_injective (List.append_cancel_left chars)

/-! ## The first free choice -/

variable {used : List String} {base : String}

/-- Choices that are all used are no more than the used names. -/
theorem le_card_of_used {n : Nat} (h : ∀ m < n, upper (nameChoice base m) ∈ used) :
    n ≤ used.toFinset.card := by
  have distinct : Set.InjOn (fun m => upper (nameChoice base m)) (Finset.range n) :=
    fun _ _ _ _ => upper_nameChoice_injective
  have among : (Finset.range n).image (fun m => upper (nameChoice base m)) ⊆ used.toFinset := by
    intro name mem
    obtain ⟨m, lt, rfl⟩ := Finset.mem_image.mp mem
    exact List.mem_toFinset.mpr (h m (Finset.mem_range.mp lt))
  calc n = ((Finset.range n).image fun m => upper (nameChoice base m)).card := by
        rw [Finset.card_image_of_injOn distinct, Finset.card_range]
    _ ≤ used.toFinset.card := Finset.card_le_card among

theorem uniqueName_eq_choice (used : List String) (base : String) :
    ∃ n, uniqueName used base = nameChoice base n := ⟨_, rfl⟩

/-- The name that is chosen is the first choice that is not used. -/
theorem exists_uniqueName_eq (used : List String) (base : String) :
    ∃ n, uniqueName used base = nameChoice base n ∧ upper (nameChoice base n) ∉ used ∧
      ∀ m < n, upper (nameChoice base m) ∈ used := by
  unfold uniqueName
  dsimp only
  cases found : (List.range (used.length + 1)).find? fun n =>
      !used.contains (upper (nameChoice base n)) with
  | some n =>
    obtain ⟨free, -, before⟩ := List.find?_range_eq_some.mp found
    exact ⟨n, rfl, by simpa using free, fun m lt => by simpa using before m lt⟩
  | none =>
    exfalso
    have all : ∀ m < used.length + 1, upper (nameChoice base m) ∈ used := by
      intro m lt
      simpa using List.find?_eq_none.mp found m (List.mem_range.mpr lt)
    have le := (le_card_of_used all).trans (List.toFinset_card_le used)
    omega

theorem uniqueName_free (used : List String) (base : String) :
    upper (uniqueName used base) ∉ used := by
  obtain ⟨n, choice, free, -⟩ := exists_uniqueName_eq used base
  exact choice ▸ free

theorem uniqueName_of_unused (h : upper base ∉ used) : uniqueName used base = base := by
  obtain ⟨n, choice, -, before⟩ := exists_uniqueName_eq used base
  cases n with
  | zero => exact choice
  | succ n => exact absurd (before 0 n.succ_pos) h

/-- The least number from two on that makes the name free is added to it. -/
theorem uniqueName_of_used_least (h : upper base ∈ used) :
    ∃ n, IsLeast {n | 2 ≤ n ∧ upper s!"{base}_{n}" ∉ used} n ∧ n ≤ used.toFinset.card + 1 ∧
      uniqueName used base = s!"{base}_{n}" := by
  obtain ⟨n, choice, free, before⟩ := exists_uniqueName_eq used base
  cases n with
  | zero => exact absurd h free
  | succ n =>
    refine ⟨n + 2, ⟨⟨Nat.le_add_left 2 n, free⟩, ?_⟩, ?_, choice⟩
    · rintro m ⟨two, unused⟩
      by_contra lt
      obtain ⟨k, rfl⟩ := Nat.exists_eq_add_of_le' two
      exact unused (before (k + 1) (by omega))
    · exact Nat.succ_le_succ (le_card_of_used before)

theorem uniqueName_of_used (h : upper base ∈ used) :
    ∃ n ≥ 2, uniqueName used base = s!"{base}_{n}" := by
  obtain ⟨n, least, -, name⟩ := uniqueName_of_used_least h
  exact ⟨n, least.1.1, name⟩

/-! ## The search without a bound -/

/-- The name that a search tries, and the number that the name after it gets. -/
structure Attempt where
  name : String
  next : Nat

namespace Attempt

/-- A search tries the name itself first. -/
def first (base : String) : Attempt := { name := base, next := 2 }

/-- The attempt after one whose name is used. -/
def following (base : String) (a : Attempt) : Attempt :=
  { name := s!"{base}_{a.next}", next := a.next + 1 }

/-- The attempt at the `n`-th choice. -/
def nth (base : String) (n : Nat) : Attempt := { name := nameChoice base n, next := n + 2 }

end Attempt

/-- The search from an attempt on ends with a name, and with the used names after it: a name that is
not used is marked and ends the search, and any other one leads to the next attempt. -/
inductive Search (base : String) (used : List String) : Attempt → String → List String → Prop where
  | free {a : Attempt} (unused : upper a.name ∉ used) :
      Search base used a a.name (upper a.name :: used)
  | again {a : Attempt} {name : String} {after : List String} (taken : upper a.name ∈ used)
      (more : Search base used (a.following base) name after) : Search base used a name after

theorem Search.unique {a : Attempt} {name name' : String} {after after' : List String}
    (h : Search base used a name after) (h' : Search base used a name' after') :
    name = name' ∧ after = after' := by
  induction h with
  | free unused =>
    cases h' with
    | free _ => exact ⟨rfl, rfl⟩
    | again taken _ => exact absurd taken unused
  | again taken _ ih =>
    cases h' with
    | free unused => exact absurd taken unused
    | again _ more => exact ih more

/-- From each choice that is not behind the first free one, the search gets there. -/
theorem search_nth {k n : Nat} (le : k ≤ n) (before : ∀ m < n, upper (nameChoice base m) ∈ used)
    (unused : upper (nameChoice base n) ∉ used) :
    Search base used (.nth base k) (nameChoice base n) (markUsed used (nameChoice base n)) := by
  -- Downwards from the first free choice: each one before it is used and leads to the next.
  induction le using Nat.decreasingInduction with
  | self => exact .free unused
  | of_succ k lt ih => exact .again (before k lt) ih

/-- The search ends, and only with the name that is chosen. -/
theorem search_iff {name : String} {after : List String} :
    Search base used (.first base) name after ↔
      name = uniqueName used base ∧ after = markUsed used (uniqueName used base) := by
  have ends : Search base used (.first base) (uniqueName used base)
      (markUsed used (uniqueName used base)) := by
    obtain ⟨n, choice, unused, before⟩ := exists_uniqueName_eq used base
    rw [choice]
    exact search_nth n.zero_le before unused
  constructor
  · exact fun h => h.unique ends
  · rintro ⟨rfl, rfl⟩
    exact ends

/-! ## Names chosen in turn -/

/-- Names chosen in turn, each apart from the used ones and from those before it. -/
def uniqueNames (used : List String) : List String → List String
  | [] => []
  | base :: bases =>
    let name := uniqueName used base
    name :: uniqueNames (markUsed used name) bases

theorem mem_foldl_markUsed {names : List String} {x : String} :
    x ∈ names.foldl markUsed used ↔ x ∈ used ∨ x ∈ names.map upper := by
  induction names generalizing used with
  | nil => simp
  | cons name names ih =>
    rw [List.foldl_cons, ih, markUsed, List.map_cons, List.mem_cons, List.mem_cons, or_assoc,
      or_left_comm]

theorem uniqueNames_distinct (used bases : List String) :
    ((uniqueNames used bases).map upper).Nodup ∧
      ∀ name ∈ uniqueNames used bases, upper name ∉ used := by
  induction bases generalizing used with
  | nil => exact ⟨List.nodup_nil, nofun⟩
  | cons base bases ih =>
    obtain ⟨nodup, unused⟩ := ih (markUsed used (uniqueName used base))
    constructor
    · refine List.nodup_cons.mpr ⟨fun again => ?_, nodup⟩
      obtain ⟨name, mem, same⟩ := List.mem_map.mp again
      exact unused name mem (same ▸ List.mem_cons_self)
    · rintro name (_ | ⟨_, mem⟩)
      · exact uniqueName_free used base
      · exact fun before => unused name mem (List.mem_cons_of_mem _ before)

/-- Whatever names are used, the search for a free one ends, and with one result. This is the name
itself if its upper case is not used, and else the name with the least number from two on for which
that is so; the number exceeds the count of the used names by one at most. The search marks the
upper case of its result as used, and nothing else. So names that are chosen in turn are distinct,
and their upper cases are, too. -/
theorem uniqueName_least :
    (∀ (used : List String) (base : String),
      let name := uniqueName used base
      (∀ result after, Search base used (.first base) result after ↔
        result = name ∧ after = markUsed used name) ∧
      (upper base ∉ used ∧ name = base ∨
        upper base ∈ used ∧ ∃ n, IsLeast {n | 2 ≤ n ∧ upper s!"{base}_{n}" ∉ used} n ∧
          n ≤ used.toFinset.card + 1 ∧ name = s!"{base}_{n}") ∧
      ∀ x, x ∈ markUsed used name ↔ x = upper name ∨ x ∈ used) ∧
    ∀ bases : List String,
      ((uniqueNames [] bases).map upper).Nodup ∧ (uniqueNames [] bases).Nodup := by
  refine ⟨fun used base => ?_, fun bases => ?_⟩
  · intro name
    refine ⟨fun result after => search_iff, ?_, fun x => List.mem_cons⟩
    by_cases h : upper base ∈ used
    · exact .inr ⟨h, uniqueName_of_used_least h⟩
    · exact .inl ⟨h, uniqueName_of_unused h⟩
  · have distinct := (uniqueNames_distinct [] bases).1
    exact ⟨distinct, distinct.of_map upper⟩

/-- The name `A` with a number can stand there before `A` comes again. -/
example : uniqueNames [] ["A_2", "A", "a", "a_2"] = ["A_2", "A", "a_3", "a_2_2"] := by
  decide +kernel

end ConstLookup
