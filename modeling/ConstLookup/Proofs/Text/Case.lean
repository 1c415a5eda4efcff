import ConstLookup.Text.Case

/-!
  A text on one line stays on one line in upper and in lower case (`newline_not_mem_upperChars`,
  `newline_not_mem_lowerFrom`): no entry of the case tables maps to a line feed.
-/

namespace ConstLookup.Text

theorem ofNat_ne_newline {n : Nat} (h : n ≠ 10) : Char.ofNat n ≠ '\n' := by
  intro same
  by_cases valid : n.isValidChar
  · have own : Char.ofNat n = Char.ofNatAux n valid := dif_pos valid
    rw [own] at same
    exact h (congrArg Char.toNat same)
  · have zero : Char.ofNat n = '\x00' := dif_neg valid
    rw [zero] at same
    exact absurd same (by decide)

/-- A run that moves its characters above the line feed maps none to it. -/
theorem image?_ne_newline {run : CaseRun} (above : 10 < run.first + run.shift) {n : Nat} {c : Char}
    (h : run.image? n = some c) : c ≠ '\n' := by
  rw [CaseRun.image?] at h
  split at h
  next covered =>
    simp only [Bool.and_eq_true, decide_eq_true_eq] at covered
    obtain rfl := Option.some.inj h
    exact ofNat_ne_newline (by omega)
  next => cases h

theorem newline_not_mem_mapCase {runs : List CaseRun} {special : List (Nat × List Nat)}
    (above : ∀ run ∈ runs, 10 < run.first + run.shift) (other : ∀ s ∈ special, 10 ∉ s.2) {c : Char}
    (h : c ≠ '\n') : '\n' ∉ mapCase runs special c := by
  rw [mapCase]
  split
  next image found =>
    rw [List.mem_map]
    rintro ⟨n, mem, same⟩
    refine ofNat_ne_newline ?_ same
    rintro rfl
    exact other _ (List.mem_of_find?_eq_some found) mem
  next =>
    rw [List.mem_singleton]
    cases found : runs.findSome? (·.image? c.toNat) with
    | none => exact Ne.symm h
    | some image =>
      obtain ⟨run, mem, moved⟩ := List.exists_of_findSome?_eq_some found
      exact Ne.symm (image?_ne_newline (above run mem) moved)

/-- What holds of the characters of ASCII by their code. -/
theorem ascii_cases {p : Char → Prop} (all : ∀ n < 128, p (Char.ofNat n)) {c : Char}
    (h : c.toNat < 128) : p c := by
  have found := all c.toNat h
  rwa [Char.ofNat_toNat] at found

theorem newline_not_mem_upperChar {c : Char} (h : c ≠ '\n') : '\n' ∉ upperChar c := by
  rw [upperChar]
  split
  next ascii =>
    revert h
    exact ascii_cases (p := fun c => c ≠ '\n' → '\n' ∉ [c.toUpper]) (by decide +kernel) ascii
  next => exact newline_not_mem_mapCase (by decide +kernel) (by decide +kernel) h

theorem newline_not_mem_lowerChar {c : Char} (h : c ≠ '\n') : '\n' ∉ lowerChar c := by
  rw [lowerChar]
  split
  next ascii =>
    revert h
    exact ascii_cases (p := fun c => c ≠ '\n' → '\n' ∉ [c.toLower]) (by decide +kernel) ascii
  next => exact newline_not_mem_mapCase (by decide +kernel) (by decide +kernel) h

theorem newline_not_mem_upperChars {cs : List Char} (h : '\n' ∉ cs) : '\n' ∉ upperChars cs := by
  rw [upperChars, List.mem_flatMap]
  rintro ⟨c, mem, found⟩
  refine newline_not_mem_upperChar ?_ found
  rintro rfl
  exact h mem

theorem newline_not_mem_lowerFrom {cs : List Char} (h : '\n' ∉ cs) (before : List Char) :
    '\n' ∉ lowerFrom before cs := by
  induction cs generalizing before with
  | nil => exact List.not_mem_nil
  | cons c cs ih =>
    rw [List.mem_cons, not_or] at h
    rw [lowerFrom, List.mem_append, not_or]
    refine ⟨?_, ih h.2 _⟩
    split
    · split <;> decide
    · exact newline_not_mem_lowerChar (Ne.symm h.1)

end ConstLookup.Text
