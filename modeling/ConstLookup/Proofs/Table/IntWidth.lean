import ConstLookup.Expr.Number
import ConstLookup.Table.IntWidth
import Mathlib.Data.List.Find
import Mathlib.Order.Bounds.Basic
import Mathlib.Order.Lattice.Nat

/-!
  The inferred type of a table holds all of its values (`inferType_holds`). It needs the bits of
  the longest absolute value, and one more for the sign. A type has so many bits if and only if it
  holds all values and its own least negative one is not among them (`bitsNeeded_le_iff`). So the
  inferred type is the smallest one that holds all values, except that a table with the least value
  of that type gets the next wider one (`inferType_least`), as -128 alone does (`inferType_edge`).
-/

namespace ConstLookup

theorem bitLength_le_iff {v : Int} {n : Nat} : bitLength v ≤ n ↔ v.natAbs < 2 ^ n := by
  unfold bitLength
  split
  · next zero =>
    rw [zero]
    exact iff_of_true (Nat.zero_le n) (Nat.pow_pos (by decide))
  · exact Nat.succ_le_iff.trans (Nat.log2_lt (by omega))

theorem foldl_max_le_iff {ns : List Nat} {m n : Nat} :
    ns.foldl max m ≤ n ↔ m ≤ n ∧ ∀ k ∈ ns, k ≤ n := by
  induction ns generalizing m with
  | nil => simp
  | cons k ns ih => rw [List.foldl_cons, ih, List.forall_mem_cons, Nat.max_le, and_assoc]

theorem longest_le_iff {values : List Int} {n : Nat} :
    (values.map bitLength).foldl max 0 ≤ n ↔ ∀ v ∈ values, v.natAbs < 2 ^ n := by
  simp [foldl_max_le_iff, bitLength_le_iff]

theorem holds_unsigned {w : Nat} {v : Int} :
    (IntType.mk w false).Holds v ↔ 0 ≤ v ∧ v < (2 ^ w : Nat) := Iff.rfl

theorem holds_signed {w : Nat} {v : Int} :
    (IntType.mk w true).Holds v ↔ -((2 ^ (w - 1) : Nat) : Int) ≤ v ∧ v < (2 ^ (w - 1) : Nat) :=
  Iff.rfl

/-! ## The bits that a table needs -/

/-- The bits of the longest absolute value, and one for the sign if a value is negative. -/
def bitsNeeded (values : List Int) : Nat :=
  (values.map bitLength).foldl max 0 + if values.any (· < 0) then 1 else 0

theorem inferType_eq {values : List Int} (nonempty : values ≠ []) :
    inferType values = (widths.find? (bitsNeeded values ≤ ·)).map fun bits =>
      { bits := bits, signed := values.any (· < 0) } := by
  unfold inferType
  rw [if_neg (by simpa using nonempty)]
  rfl

theorem nonneg_of_unsigned {values : List Int} (unsigned : values.any (· < 0) = false) {v : Int}
    (hv : v ∈ values) : 0 ≤ v := by
  simpa using List.any_eq_false.mp unsigned v hv

/-- The least value of a signed type has as many bits as the type, and no room for the sign. -/
theorem bitsNeeded_le_iff {values : List Int} {w : Nat} (pos : 0 < w) :
    bitsNeeded values ≤ w ↔
      (∀ v ∈ values, (IntType.mk w (values.any (· < 0))).Holds v) ∧
        -((2 ^ (w - 1) : Nat) : Int) ∉ values := by
  cases sign : values.any (· < 0) with
  | false =>
    have nonneg {v : Int} (hv : v ∈ values) : 0 ≤ v := nonneg_of_unsigned sign hv
    have edge : -((2 ^ (w - 1) : Nat) : Int) ∉ values := fun mem => by
      have := nonneg mem
      have := Nat.two_pow_pos (w - 1)
      omega
    rw [bitsNeeded, sign, if_neg Bool.false_ne_true, Nat.add_zero, longest_le_iff,
      and_iff_left edge]
    refine forall₂_congr fun v hv => ?_
    have := nonneg hv
    rw [holds_unsigned]
    omega
  | true =>
    have room : bitsNeeded values ≤ w ↔ ∀ v ∈ values, v.natAbs < 2 ^ (w - 1) := by
      rw [bitsNeeded, sign, if_pos rfl, ← longest_le_iff]
      omega
    rw [room]
    simp only [holds_signed]
    constructor
    · refine fun small => ⟨fun v hv => ?_, fun mem => ?_⟩
      · have := small v hv
        omega
      · have := small _ mem
        omega
    · rintro ⟨holds, edge⟩ v hv
      have := holds v hv
      have ne : v ≠ -((2 ^ (w - 1) : Nat) : Int) := fun e => edge (e ▸ hv)
      omega

theorem width_pos : ∀ w ∈ widths, 0 < w := by decide

theorem width_le : ∀ w ∈ widths, w ≤ 128 := by decide

/-- The inferred type holds every value. -/
theorem inferType_holds {values : List Int} {ty : IntType} (h : inferType values = some ty)
    {v : Int} (hv : v ∈ values) : ty.Holds v := by
  rw [inferType_eq (List.ne_nil_of_mem hv)] at h
  obtain ⟨bits, found, rfl⟩ := Option.map_eq_some_iff.mp h
  have enough : bitsNeeded values ≤ bits := by simpa using List.find?_some found
  have pos := width_pos bits (List.mem_of_find?_eq_some found)
  exact ((bitsNeeded_le_iff pos).mp enough).1 v hv

/-! ## The smallest type -/

/-- The widths for which the type of the given sign holds all values. -/
def fittingWidths (signed : Bool) (values : List Int) : Set Nat :=
  {w | w ∈ widths ∧ ∀ v ∈ values, (IntType.mk w signed).Holds v}

/-- There is a smallest type that holds given words, since their own type is one that does. -/
theorem exists_least_width {values : List Int} (word : ∀ v ∈ values, InWord v) :
    ∃ w, IsLeast (fittingWidths (values.any (· < 0)) values) w := by
  have widest : 128 ∈ fittingWidths (values.any (· < 0)) values := by
    refine ⟨by decide, fun v hv => ?_⟩
    have inWord := word v hv
    cases sign : values.any (· < 0) with
    | true => exact inWord
    | false =>
      have wider : 2 ^ 127 ≤ 2 ^ 128 := by decide
      exact ⟨nonneg_of_unsigned sign hv, inWord.2.trans_le (Int.ofNat_le.mpr wider)⟩
  exact ⟨_, Nat.sInf_mem ⟨128, widest⟩, fun _ => Nat.sInf_le⟩

/-- In a list in ascending order the first number with a property is the least one. -/
theorem find?_of_isLeast {ns : List Nat} (sorted : ns.Pairwise (· < ·)) {p : Nat → Bool} {n : Nat}
    (least : IsLeast {m | m ∈ ns ∧ p m = true} n) : ns.find? p = some n := by
  obtain ⟨⟨mem, hn⟩, lower⟩ := least
  obtain ⟨m, found⟩ := Option.isSome_iff_exists.mp (List.find?_isSome.mpr ⟨n, mem, hn⟩)
  obtain ⟨hm, front, back, rfl, none⟩ := List.find?_eq_some_iff_append.mp found
  rw [found]
  rcases List.mem_append.mp mem with early | late
  · exact absurd hn (by simpa using none n early)
  · rcases List.mem_cons.mp late with rfl | late
    · rfl
    · have later := (List.pairwise_cons.mp (List.pairwise_append.mp sorted).2.1).1 n late
      have := lower ⟨List.mem_append_right _ List.mem_cons_self, hm⟩
      omega

theorem widths_sorted : widths.Pairwise (· < ·) := by decide

variable {values : List Int} {w : Nat}

/-- Without the least value of the smallest type, this is the inferred type. -/
theorem inferType_of_inside (nonempty : values ≠ [])
    (least : IsLeast (fittingWidths (values.any (· < 0)) values) w)
    (inside : -((2 ^ (w - 1) : Nat) : Int) ∉ values) :
    inferType values = some { bits := w, signed := values.any (· < 0) } := by
  obtain ⟨⟨mem, holds⟩, lower⟩ := least
  have enough := (bitsNeeded_le_iff (width_pos w mem)).mpr ⟨holds, inside⟩
  rw [inferType_eq nonempty, find?_of_isLeast widths_sorted ⟨⟨mem, decide_eq_true enough⟩, ?_⟩]
  · rfl
  · rintro n ⟨hn, more⟩
    exact lower ⟨hn, ((bitsNeeded_le_iff (width_pos n hn)).mp (of_decide_eq_true more)).1⟩

/-- With the least value of the smallest type, exactly the wider types have room. -/
theorem bitsNeeded_le_iff_of_edge
    (least : IsLeast (fittingWidths (values.any (· < 0)) values) w)
    (edge : -((2 ^ (w - 1) : Nat) : Int) ∈ values) {n : Nat} (hn : n ∈ widths) :
    bitsNeeded values ≤ n ↔ w < n := by
  obtain ⟨⟨mem, holds⟩, lower⟩ := least
  have pos := width_pos w mem
  have full : ¬ bitsNeeded values ≤ w := fun enough => ((bitsNeeded_le_iff pos).mp enough).2 edge
  constructor
  · intro enough
    omega
  · intro wider
    have positive := Nat.two_pow_pos (w - 1)
    have sign : values.any (· < 0) = true :=
      List.any_eq_true.mpr ⟨_, edge, decide_eq_true (by omega)⟩
    have more := Nat.pow_lt_pow_right (by decide : 1 < 2) (show w - 1 < n - 1 by omega)
    rw [sign] at holds
    refine (bitsNeeded_le_iff (width_pos n hn)).mpr ⟨fun v hv => ?_, fun hv => ?_⟩
    · have := holds_signed.mp (holds v hv)
      rw [sign, holds_signed]
      omega
    · have := holds_signed.mp (holds _ hv)
      omega

/-- With the least value of the smallest type, the next wider one is inferred. -/
theorem inferType_of_edge (nonempty : values ≠ [])
    (least : IsLeast (fittingWidths (values.any (· < 0)) values) w)
    (edge : -((2 ^ (w - 1) : Nat) : Int) ∈ values) :
    inferType values =
      if w < 128 then some { bits := 2 * w, signed := values.any (· < 0) } else none := by
  have wider {n : Nat} (hn : n ∈ widths) := bitsNeeded_le_iff_of_edge least edge hn
  have found : widths.find? (bitsNeeded values ≤ ·) = widths.find? (w < ·) :=
    List.find?_congr fun n hn => decide_eq_decide.mpr (wider hn)
  rw [inferType_eq nonempty, found]
  have mem := least.1.1
  simp only [widths, List.mem_cons, List.not_mem_nil, or_false] at mem
  rcases mem with rfl | rfl | rfl | rfl | rfl <;> rfl

/-- Only the widest type has the least word. -/
theorem width_of_leastWord (least : IsLeast (fittingWidths (values.any (· < 0)) values) w)
    (mem : -((2 ^ 127 : Nat) : Int) ∈ values) : w = 128 := by
  obtain ⟨⟨width, holds⟩, -⟩ := least
  have sign : values.any (· < 0) = true := List.any_eq_true.mpr ⟨_, mem, by decide⟩
  rw [sign] at holds
  have bound := holds_signed.mp (holds _ mem)
  have := width_le w width
  by_contra ne
  have := Nat.pow_lt_pow_right (by decide : 1 < 2) (show w - 1 < 127 by omega)
  omega

/-- Of given words, the smallest type that holds them all is inferred, unless its own least value is
one of them; then it is the next wider type. So there is none exactly for the least word. -/
theorem inferType_least (nonempty : values ≠ []) (word : ∀ v ∈ values, InWord v) :
    ∃ signed w, (signed = true ↔ ∃ v ∈ values, v < 0) ∧
      IsLeast (fittingWidths signed values) w ∧
      inferType values =
        (if -((2 ^ (w - 1) : Nat) : Int) ∉ values then some { bits := w, signed := signed }
        else if w < 128 then some { bits := 2 * w, signed := signed }
        else none) ∧
      (inferType values = none ↔ -((2 ^ 127 : Nat) : Int) ∈ values) := by
  obtain ⟨w, least⟩ := exists_least_width word
  have inferred : inferType values =
      if -((2 ^ (w - 1) : Nat) : Int) ∉ values then
        some { bits := w, signed := values.any (· < 0) }
      else if w < 128 then some { bits := 2 * w, signed := values.any (· < 0) } else none := by
    split
    · next inside => exact inferType_of_inside nonempty least inside
    · next edge => exact inferType_of_edge nonempty least (not_not.mp edge)
  refine ⟨values.any (· < 0), w, by simp, least, inferred, ?_⟩
  rw [inferred]
  constructor
  · intro none
    split at none
    · cases none
    · next edge =>
      split at none
      · cases none
      · next widest =>
        obtain rfl : w = 128 := Nat.le_antisymm (width_le w least.1.1) (Nat.not_lt.mp widest)
        exact not_not.mp edge
  · intro mem
    obtain rfl := width_of_leastWord least mem
    rw [if_neg (not_not.mpr mem), if_neg (Nat.lt_irrefl _)]

theorem inferType_least_edge :
    [100, -128] ≠ ([] : List Int) ∧ (∀ v ∈ [100, (-128 : Int)], InWord v) ∧
      ∃ signed w, (signed = true ↔ ∃ v ∈ [100, (-128 : Int)], v < 0) ∧
        IsLeast (fittingWidths signed [100, -128]) w ∧
        inferType [100, -128] =
          (if -((2 ^ (w - 1) : Nat) : Int) ∉ [100, (-128 : Int)] then
            some { bits := w, signed := signed }
          else if w < 128 then some { bits := 2 * w, signed := signed }
          else none) ∧
        (inferType [100, -128] = none ↔ -((2 ^ 127 : Nat) : Int) ∈ [100, (-128 : Int)]) := by
  have word : ∀ v ∈ [100, (-128 : Int)], InWord v := by decide
  exact ⟨List.cons_ne_nil _ _, word, inferType_least (List.cons_ne_nil _ _) word⟩

/-- A type of 8 bits holds -128, but the sign is counted on top of the 8 bits of 128. -/
theorem inferType_edge :
    ¬ ∀ values : List Int, values ≠ [] → (∀ v ∈ values, InWord v) →
      ∀ ty, inferType values = some ty → IsLeast (fittingWidths ty.signed values) ty.bits := by
  intro h
  have least := h [-128] (List.cons_ne_nil _ _) (by decide) { bits := 16, signed := true } rfl
  have fits : 8 ∈ fittingWidths true [-128] := by
    refine ⟨by decide, fun v hv => ?_⟩
    rw [List.mem_singleton.mp hv]
    exact ⟨by decide, by decide⟩
  exact absurd (least.2 fits) (by decide)

end ConstLookup
