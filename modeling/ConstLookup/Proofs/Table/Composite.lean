import ConstLookup.Proofs.Table.Collision
import ConstLookup.Text.Blank
import Mathlib.Data.List.Infix

/-!
  The form of a label for several names (`compositeLabel_shape`). A text starts all names if and
  only if it starts the common start of them (`prefix_foldl_commonStart`). So the last underscore
  there ends the longest stem that all names have, and each name is cut before an underscore.

  The cuts can be made at bytes. Where the common start ends and where its last underscore is are
  counted in bytes of the first name. All names have the same bytes up to there, so no cut falls
  inside a character (`slicedLabel?_eq`), also where the upper case of a name is longer than the
  name.
-/

namespace ConstLookup

open ConstLookup.Text

/-! ## The longest shared stem -/

theorem prefix_commonStart {p a b : List Char} : p <+: commonStart a b ↔ p <+: a ∧ p <+: b := by
  induction p generalizing a b with
  | nil => simp
  | cons c p ih =>
    match a, b with
    | [], b => simp [commonStart]
    | x :: as, [] => simp [commonStart]
    | x :: as, y :: bs =>
      rw [commonStart]
      split
      · next same =>
        rw [List.cons_prefix_cons, List.cons_prefix_cons, List.cons_prefix_cons, ih, same]
        tauto
      · next differ =>
        simp only [List.prefix_nil, List.cons_prefix_cons, reduceCtorEq, false_iff]
        rintro ⟨⟨rfl, -⟩, rfl, -⟩
        exact differ rfl

theorem prefix_foldl_commonStart {p first : List Char} {others : List (List Char)} :
    p <+: others.foldl commonStart first ↔ ∀ n ∈ first :: others, p <+: n := by
  induction others generalizing first with
  | nil => simp
  | cons o os ih =>
    rw [List.foldl_cons, ih]
    simp only [List.forall_mem_cons, prefix_commonStart, and_assoc]

/-- The characters that all names share at their start. -/
def commonChars (first : String) (others : List String) : List Char :=
  (others.map String.toList).foldl commonStart first.toList

theorem prefix_commonChars {p : List Char} {first : String} {others : List String} :
    p <+: commonChars first others ↔ ∀ n ∈ first :: others, p <+: n.toList := by
  rw [commonChars, prefix_foldl_commonStart]
  simp

theorem beforeUnderscore?_eq_none {cs : List Char} (h : beforeUnderscore? cs = none) :
    '_' ∉ cs := by
  unfold beforeUnderscore? at h
  split at h
  · next none =>
    intro mem
    simpa using List.dropWhile_eq_nil_iff.mp none '_' (List.mem_reverse.mpr mem)
  · cases h

/-- What ends before an underscore ends before the last one. -/
theorem prefix_of_beforeUnderscore? {cs before p : List Char}
    (h : beforeUnderscore? cs = some before) (starts : p ++ ['_'] <+: cs) : p <+: before := by
  obtain ⟨after, plain, rfl⟩ := beforeUnderscore?_eq_some_last h
  rcases List.prefix_or_prefix_of_prefix ((List.prefix_append _ _).trans starts)
    (List.prefix_append before ('_' :: after)) with shorter | ⟨more, rfl⟩
  · exact shorter
  · -- a longer start would have its underscore behind the last one
    rw [List.append_assoc, List.prefix_append_right_inj] at starts
    cases more with
    | nil => simp
    | cons c more =>
      rw [List.cons_append, List.cons_prefix_cons] at starts
      exact absurd (starts.2.subset (by simp)) plain

/-! ## Cuts at bytes -/

/-- How far two texts agree, in bytes: up to where they differ or one ends, or up to the byte
`limit`. So many as `offset` were passed before. -/
def sharedBytes (limit offset : Nat) : List Char → List Char → Nat
  | a :: as, b :: bs =>
    if offset < limit ∧ a = b then sharedBytes limit (offset + a.utf8Size) as bs else offset
  | _, _ => offset

/-- The number of bytes that all names share at their start. -/
def commonBytes (first : String) (others : List String) : Nat :=
  others.foldl (fun limit n => sharedBytes limit 0 first.toList n.toList) first.utf8ByteSize

/-- The byte at which the last underscore stands. -/
def underscoreByte? (s : String) : Option Nat := (beforeUnderscore? s.toList).map byteLength

/-- Cut a text at a byte. There is no cut inside a character, nor behind the end. -/
def cutAt? (s : String) (n : Nat) : Option (String × String) :=
  if h : (⟨n⟩ : String.Pos.Raw).IsValid s then
    some ((s.sliceTo ⟨⟨n⟩, h⟩).copy, (s.sliceFrom ⟨⟨n⟩, h⟩).copy)
  else none

/-- The label for several names, put together from slices of their upper cases at bytes. -/
def slicedLabel? (names : List String) : Option String :=
  match names.map upper with
  | [] => some ""
  | [only] => some only
  | first :: others => do
    let (common, _) ← cutAt? first (commonBytes first others)
    match underscoreByte? common with
    | some cut =>
      let (stem, _) ← cutAt? first cut
      let ends ← (first :: others).mapM fun n => (cutAt? n cut).map (·.2)
      return stem ++ "_OR".intercalate ends
    | none => return "_OR_".intercalate (first :: others)

theorem byteLength_eq (cs : List Char) : byteLength cs = (String.ofList cs).utf8ByteSize := by
  induction cs with
  | nil => rfl
  | cons c cs ih =>
    rw [byteLength, ih, String.ofList_cons, String.utf8ByteSize_append,
      String.utf8ByteSize_singleton]

/-- A cut gives the two parts of a text of which the first has so many bytes. -/
theorem cutAt?_eq_some_iff {s front back : String} {n : Nat} :
    cutAt? s n = some (front, back) ↔ s = front ++ back ∧ n = front.utf8ByteSize := by
  constructor
  · intro h
    unfold cutAt? at h
    split at h
    · next valid =>
      obtain ⟨rfl, rfl⟩ := Prod.mk.inj (Option.some.inj h)
      have splits := String.Pos.splits (⟨⟨n⟩, valid⟩ : s.Pos)
      exact ⟨splits.eq_append, congrArg String.Pos.Raw.byteIdx splits.offset_eq_rawEndPos⟩
    · cases h
  · rintro ⟨rfl, rfl⟩
    have valid : (⟨front.utf8ByteSize⟩ : String.Pos.Raw).IsValid (front ++ back) :=
      String.Pos.Raw.isValid_iff_exists_append.mpr ⟨front, back, rfl, rfl⟩
    have splits : (⟨⟨front.utf8ByteSize⟩, valid⟩ : (front ++ back).Pos).Splits front back :=
      ⟨rfl, rfl⟩
    obtain ⟨first, rest⟩ := (String.Pos.splits _).eq splits
    rw [cutAt?, dif_pos valid, first, rest]

/-- Between the two bytes of a character there is no cut. -/
example : cutAt? "é" 1 = none := by decide

theorem sharedBytes_eq (start more name : List Char) (offset : Nat) :
    sharedBytes (offset + byteLength start) offset (start ++ more) name =
      offset + byteLength (commonStart start name) := by
  induction start generalizing name offset with
  | nil =>
    cases more <;> cases name <;> simp [sharedBytes, commonStart, byteLength]
  | cons a start ih =>
    cases name with
    | nil => simp [sharedBytes, commonStart, byteLength]
    | cons b name =>
      rw [List.cons_append, sharedBytes, commonStart, byteLength]
      by_cases same : a = b
      · have before : offset < offset + (a.utf8Size + byteLength start) := by
          have := a.utf8Size_pos
          omega
        rw [if_pos ⟨before, same⟩, if_pos same, byteLength, ← Nat.add_assoc, ih, Nat.add_assoc]
      · rw [if_neg fun h => same h.2, if_neg same]
        rfl

theorem commonBytes_eq (first : String) (others : List String) :
    commonBytes first others = byteLength (commonChars first others) := by
  have fold (start : List Char) (h : start <+: first.toList) :
      others.foldl (fun limit n => sharedBytes limit 0 first.toList n.toList) (byteLength start) =
        byteLength ((others.map String.toList).foldl commonStart start) := by
    induction others generalizing start with
    | nil => rfl
    | cons o os ih =>
      obtain ⟨more, whole⟩ := h
      have step : sharedBytes (byteLength start) 0 first.toList o.toList =
          byteLength (commonStart start o.toList) := by
        simpa [whole] using sharedBytes_eq start more o.toList 0
      rw [List.foldl_cons, step, List.map_cons, List.foldl_cons]
      exact ih _ ((commonStart_starts _ _).trans ⟨more, whole⟩)
  rw [commonBytes, commonChars, ← fold _ (List.prefix_refl _), byteLength_eq, String.ofList_toList]

theorem mapM_eq_some {α β : Type} {f : α → Option β} {g : α → β} {l : List α}
    (h : ∀ a ∈ l, f a = some (g a)) : l.mapM f = some (l.map g) := by
  induction l with
  | nil => rfl
  | cons a l ih =>
    obtain ⟨first, rest⟩ := List.forall_mem_cons.mp h
    rw [List.mapM_cons, first, ih rest]
    rfl

theorem append_rest {start : List Char} {n : String} (h : start <+: n.toList) :
    String.ofList start ++ String.ofList (n.toList.drop start.length) = n := by
  rw [← String.ofList_append, List.prefix_iff_eq_append.mp h, String.ofList_toList]

/-- A name is cut behind a start of it. -/
theorem cutAt?_of_prefix {start : List Char} {n : String} (h : start <+: n.toList) :
    cutAt? n (byteLength start) =
      some (String.ofList start, String.ofList (n.toList.drop start.length)) :=
  cutAt?_eq_some_iff.mpr ⟨(append_rest h).symm, byteLength_eq start⟩

/-! ## Labels -/

/-- The label for several names in terms of their upper cases. -/
theorem compositeLabel_eq (a b : String) (rest : List String) :
    compositeLabel (a :: b :: rest) =
      match beforeUnderscore? (commonChars (upper a) ((b :: rest).map upper)) with
      | some stem => String.ofList stem ++ "_OR".intercalate
          (((a :: b :: rest).map upper).map fun n => String.ofList (n.toList.drop stem.length))
      | none => "_OR_".intercalate ((a :: b :: rest).map upper) := by
  have common : ((b :: rest).map fun n => upperChars n.toList).foldl commonStart
      (upperChars a.toList) = commonChars (upper a) ((b :: rest).map upper) := by
    simp [commonChars, upper, Function.comp_def]
  unfold compositeLabel
  simp only [List.map_cons] at common ⊢
  rw [common, ← String.toList_inj]
  cases beforeUnderscore? (commonChars (upper a) (upper b :: rest.map upper)) with
  | none => simp [upper, Function.comp_def]
  | some stem => simp [upper, Function.comp_def]

/-- No slice falls inside a character, and together the slices are the label. -/
theorem slicedLabel?_eq (names : List String) :
    slicedLabel? names = some (compositeLabel names) := by
  match names with
  | [] => rfl
  | [only] => rfl
  | a :: b :: rest =>
    have starts : ∀ n ∈ (a :: b :: rest).map upper,
        commonChars (upper a) ((b :: rest).map upper) <+: n.toList :=
      prefix_commonChars.mp (List.prefix_refl _)
    have common := cutAt?_of_prefix (starts _ List.mem_cons_self)
    rw [← commonBytes_eq] at common
    rw [compositeLabel_eq]
    simp only [slicedLabel?, List.map_cons] at common starts ⊢
    rw [common]
    simp only [Option.bind_eq_bind, Option.bind_some, underscoreByte?, String.toList_ofList]
    cases last : beforeUnderscore? (commonChars (upper a) (upper b :: rest.map upper)) with
    | none => rfl
    | some stem =>
      obtain ⟨after, whole⟩ := beforeUnderscore?_eq_some last
      have cut : ∀ n ∈ upper a :: upper b :: rest.map upper, cutAt? n (byteLength stem) =
          some (String.ofList stem, String.ofList (n.toList.drop stem.length)) := fun n hn =>
        cutAt?_of_prefix ((List.prefix_append _ _).trans (whole ▸ starts n hn))
      have ends := mapM_eq_some fun n hn =>
        congrArg (Option.map (·.2)) (cut n hn)
      simp only [Option.map_some]
      rw [cut _ List.mem_cons_self, ends]
      rfl

/-- Every name starts with the stem and an underscore. -/
def SharedStem (stem : String) (names : List String) : Prop :=
  ∀ n ∈ names, (stem ++ "_").toList <+: n.toList

theorem sharedStem_iff {stem first : String} {others : List String} :
    SharedStem stem (first :: others) ↔ stem.toList ++ ['_'] <+: commonChars first others := by
  simp [SharedStem, prefix_commonChars]

theorem sharedStem_of_cut {first : String} {others : List String} {stem : List Char}
    (h : beforeUnderscore? (commonChars first others) = some stem) :
    SharedStem (String.ofList stem) (first :: others) := by
  obtain ⟨after, whole⟩ := beforeUnderscore?_eq_some h
  rw [sharedStem_iff, whole, String.toList_ofList, List.prefix_append_right_inj]
  exact List.prefix_append ['_'] after

theorem prefix_of_sharedStem {first p : String} {others : List String} {stem : List Char}
    (h : beforeUnderscore? (commonChars first others) = some stem)
    (shared : SharedStem p (first :: others)) : p.toList <+: stem :=
  prefix_of_beforeUnderscore? h (sharedStem_iff.mp shared)

theorem not_sharedStem {first p : String} {others : List String}
    (h : beforeUnderscore? (commonChars first others) = none) :
    ¬ SharedStem p (first :: others) := fun shared =>
  beforeUnderscore?_eq_none h ((sharedStem_iff.mp shared).subset (by simp))

/-- The names are the stem and what follows in each. -/
theorem SharedStem.eq_map_append {stem : List Char} {names : List String}
    (h : SharedStem (String.ofList stem) names) :
    names = (names.map fun n => String.ofList (n.toList.drop stem.length)).map
      (String.ofList stem ++ ·) := by
  rw [List.map_map]
  refine (List.map_id names).symm.trans (List.map_congr_left fun n hn => ?_)
  refine (append_rest (List.IsPrefix.trans ?_ (h n hn))).symm
  simp

theorem SharedStem.rest_starts {stem : List Char} {names : List String}
    (h : SharedStem (String.ofList stem) names) :
    ∀ e ∈ names.map fun n => String.ofList (n.toList.drop stem.length), ['_'] <+: e.toList := by
  refine List.forall_mem_map.mpr fun n hn => ?_
  obtain ⟨more, whole⟩ := h n hn
  rw [← whole]
  simp

/-- A label for several names starts with the longest stem, in upper case, that all of them have
before an underscore; then follows the rest of each name, from the underscore on. Without such a
stem the names are whole. Slices at bytes give that label for all names, so none of them falls
inside a character. -/
theorem compositeLabel_shape (a b : String) (rest : List String) :
    let names := a :: b :: rest
    let uppers := names.map upper
    ((∃ p, SharedStem p uppers) →
      ∃ stem ends, SharedStem stem uppers ∧ (∀ p, SharedStem p uppers → p.toList <+: stem.toList) ∧
        uppers = ends.map (stem ++ ·) ∧ (∀ e ∈ ends, ['_'] <+: e.toList) ∧
        compositeLabel names = stem ++ "_OR".intercalate ends) ∧
    ((¬ ∃ p, SharedStem p uppers) → compositeLabel names = "_OR_".intercalate uppers) ∧
    slicedLabel? names = some (compositeLabel names) := by
  intro names uppers
  have label := compositeLabel_eq a b rest
  cases last : beforeUnderscore? (commonChars (upper a) ((b :: rest).map upper)) with
  | none =>
    simp only [last] at label
    have unshared : ¬ ∃ p, SharedStem p uppers := fun ⟨_, shared⟩ => not_sharedStem last shared
    exact ⟨fun shared => absurd shared unshared, fun _ => label, slicedLabel?_eq names⟩
  | some stem =>
    simp only [last] at label
    have shared : SharedStem (String.ofList stem) uppers := sharedStem_of_cut last
    have longest (p : String) (hp : SharedStem p uppers) :
        p.toList <+: (String.ofList stem).toList := by
      rw [String.toList_ofList]
      exact prefix_of_sharedStem last hp
    exact ⟨fun _ => ⟨_, _, shared, longest, shared.eq_map_append, shared.rest_starts, label⟩,
      fun unshared => absurd ⟨_, shared⟩ unshared, slicedLabel?_eq names⟩

end ConstLookup
