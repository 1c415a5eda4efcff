import ConstLookup.File.Tree

/-!
  Paths in a tree of files. A write that succeeds changes one place, and the path then reads
  back what was written (`write_spec`). This holds of every tree, also where links lead through
  other directories: a walk goes on only from a place that is a directory or a link, and the
  place that is written to is neither when the walk meets it. A path that spells one name from the
  root finds the file of that name (`find_leadsTo`).
-/

namespace ConstLookup.FileTree

variable {t t' : FileTree} {place : List String} {path : String} {bytes : List UInt8}

theorem entry?_put (h : place ≠ []) (e : FileEntry) (other : List String) :
    FileTree.entry? (t.put place e) other = if other = place then some e else t.entry? other := by
  unfold entry? put
  by_cases same : other = place
  · subst same
    simp [h]
  · have kept : ((place, e) :: t.entries.filter (·.1 ≠ place)).find? (·.1 = other) =
        t.entries.find? (·.1 = other) := by
      rw [List.find?_cons_of_neg (by simpa using Ne.symm same), List.find?_filter]
      congr 1
      funext x
      by_cases hx : x.1 = other <;> simp [hx, same]
    rw [kept, if_neg same]

theorem start_prefix_place (target : String) (place : List String) : start target place <+: place := by
  unfold start
  split
  · exact List.nil_prefix
  · exact List.prefix_refl place

/-- A walk that ends at a link did not get there by name, for it would have followed the link. So
it ends at the place where it started, or above it. -/
theorem prefix_of_walk_link {create : Bool} {links : Nat} {directory rest : List String}
    {target : String} (walked : t.walk create links directory rest = .ok place)
    (link : t.entry? place = some (.link target)) : place <+: directory := by
  fun_induction walk t create links directory rest with
  | case1 => cases walked; exact List.prefix_refl _
  | case2 links directory name rest _ ih => exact ih walked
  | case3 links directory rest _ ih => exact (ih walked).trans (List.dropLast_prefix _)
  | case4 => cases walked
  | case5 links directory name rest _ _ here absent =>
    rw [← Except.ok.inj walked, absent] at link
    cases link
  | case6 => cases walked
  | case7 links directory name rest _ _ here entry ih =>
    rcases List.prefix_concat_iff.mp (ih walked) with rfl | above
    · rw [entry] at link
      cases link
    · exact above
  | case8 links directory name rest _ _ here bytes entry =>
    rw [← Except.ok.inj walked, entry] at link
    cases link
  | case9 => cases walked
  | case10 directory name rest _ _ here other entry links ih =>
    exact (ih walked).trans (start_prefix_place other directory)
  | case11 => cases walked

/-- A file at the place where a walk ended does not change where the walk ends. -/
theorem walk_put {links : Nat} {directory rest : List String}
    (walked : t.walk true links directory rest = .ok place)
    (open' : t.entry? place ≠ some .directory) (below : place ≠ []) :
    (t.put place (.file bytes)).walk false links directory rest = .ok place := by
  have entry := entry?_put (t := t) below (.file bytes)
  fun_induction walk t true links directory rest with
  | case1 => cases walked; rw [walk]
  | case2 links directory name rest idle ih => rw [walk, if_pos idle]; exact ih walked
  | case3 links directory rest named ih => rw [walk, if_neg named, if_pos rfl]; exact ih walked
  | case4 => cases walked
  | case5 links directory name rest named down here absent _ last =>
    rw [walk, if_neg named, if_neg down]
    dsimp only
    rw [entry, if_pos (Except.ok.inj walked)]
    exact (if_pos last).trans walked
  | case6 => cases walked
  | case7 links directory name rest named down here found ih =>
    have other : here ≠ place := by
      rintro rfl
      exact open' found
    rw [walk, if_neg named, if_neg down]
    dsimp only
    rw [entry, if_neg other, found]
    exact ih walked
  | case8 links directory name rest named down here _ found last =>
    rw [walk, if_neg named, if_neg down]
    dsimp only
    rw [entry, if_pos (Except.ok.inj walked)]
    exact (if_pos last).trans walked
  | case9 => cases walked
  | case10 directory name rest named down here target found links ih =>
    have other : here ≠ place := by
      rintro rfl
      have above := (prefix_of_walk_link walked found).trans (start_prefix_place target directory)
      exact absurd above.length_le (by simp [here])
    rw [walk, if_neg named, if_neg down]
    dsimp only
    rw [entry, if_neg other, found]
    exact ih walked
  | case11 => cases walked

/-! ## Writing -/

/-- What a write that succeeds does: nothing changes but the place that the path names, and the
path reads back what was written. -/
structure Wrote (t t' : FileTree) (path : String) (bytes : List UInt8) : Prop where
  changed : ∃ place, t.find true path = .ok place ∧ t'.entry? place = some (.file bytes) ∧
    ∀ other, other ≠ place → t'.entry? other = t.entry? other
  current : t'.current = t.current
  reads : t'.read path = .ok bytes

theorem write_eq_ok (h : t.write path bytes = .ok t') :
    ∃ place, t.find true path = .ok place ∧ t.entry? place ≠ some .directory ∧
      t' = t.put place (.file bytes) := by
  cases found : t.find true path with
  | error fault =>
    simp only [write, found, bind, Except.bind] at h
    cases h
  | ok place =>
    simp only [write, found, bind, Except.bind] at h
    split at h
    · cases h
    · next free => exact ⟨place, rfl, free, (Except.ok.inj h).symm⟩

theorem find_put (found : t.find true path = .ok place) (free : t.entry? place ≠ some .directory)
    (below : place ≠ []) : (t.put place (.file bytes)).find false path = .ok place := by
  unfold find at found ⊢
  split at found
  · cases found
  · next named => exact (if_neg named).trans (walk_put found free below)

theorem write_spec (h : t.write path bytes = .ok t') : Wrote t t' path bytes := by
  obtain ⟨place, found, free, rfl⟩ := write_eq_ok h
  have below : place ≠ [] := by
    rintro rfl
    exact free rfl
  constructor
  case changed =>
    refine ⟨place, found, ?_, fun other apart => ?_⟩
    · rw [entry?_put below, if_pos rfl]
    · rw [entry?_put below, if_neg apart]
  case current => rfl
  case reads => simp [read, find_put found free below, entry?_put below, bind, Except.bind]

/-- A path that can be read names a file. -/
theorem lookup?_of_read (h : t.read path = .ok bytes) : t.lookup? path = some (.file bytes) := by
  cases found : t.find false path with
  | error fault =>
    simp only [read, found, bind, Except.bind] at h
    cases h
  | ok place =>
    simp only [read, found, bind, Except.bind] at h
    split at h
    · next entry =>
      cases h
      rw [lookup?, found]
      exact entry
    · cases h
    · cases h

/-! ## Files of the root -/

/-- The path starts at the root and spells one name. -/
def LeadsTo (t : FileTree) (path name : String) : Prop :=
  path ≠ "" ∧ start path t.current = [] ∧ names path ∈ [[name], ["", name]] ∧
    name ∉ ["", ".", ".."]

instance (t : FileTree) (path name : String) : Decidable (t.LeadsTo path name) :=
  inferInstanceAs (Decidable (_ ∧ _))

section Root

variable {name : String} (h : t.LeadsTo path name) (entry : t.entry? [name] = some (.file bytes))

include h entry

theorem find_leadsTo (create : Bool) : t.find create path = .ok [name] := by
  obtain ⟨nonempty, start, spelled, plain⟩ := h
  simp only [List.mem_cons, List.not_mem_nil, or_false, not_or] at spelled plain
  have walked : t.walk create maxLinks [] [name] = .ok [name] := by simp [walk, plain, entry]
  have front : path.isEmpty = false := by simpa using nonempty
  rw [find, front, start]
  rcases spelled with spelled | spelled <;> rw [spelled]
  · exact walked
  · rw [walk]
    exact walked

theorem read_leadsTo : t.read path = .ok bytes := by
  rw [read, find_leadsTo h entry]
  simp [bind, Except.bind, entry]

theorem canonical?_leadsTo : t.canonical? path = some ("/" ++ name) := by
  rw [canonical?, find_leadsTo h entry]
  simp [Except.toOption, pathOf]

end Root

end ConstLookup.FileTree
