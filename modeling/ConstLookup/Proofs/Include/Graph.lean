import ConstLookup.Include.Graph
import Mathlib.Data.List.Nodup
import Mathlib.Logic.Relation

/-!
  Graphs of headers that are built by adding headers and connecting them are proper: every path
  names one header, and the includes of a header are listed in order, each once (`Built.proper`).
  Both operations keep this (`Proper.add`, `Proper.connect`), since the order of paths is a strict
  one (`Path.before_trans`, `Path.before_asymm`).
-/

namespace ConstLookup

/-! ## The order of paths -/

namespace Path

theorem Part.before_asymm {a b : Part} (h : a.before b = true) : b.before a = false := by
  refine Bool.eq_false_iff.mpr fun back => ?_
  cases a <;> cases b <;> simp only [Part.before, decide_eq_true_eq, Bool.false_eq_true] at h back
  exact String.lt_asymm h back

theorem Part.before_trans {a b c : Part} (hab : a.before b = true) (hbc : b.before c = true) :
    a.before c = true := by
  cases a <;> cases b <;> cases c <;>
    simp only [Part.before, decide_eq_true_eq, Bool.false_eq_true] at hab hbc ⊢
  exact String.lt_trans hab hbc

theorem partsBefore_asymm {as bs : List Part} (h : partsBefore as bs = true) :
    partsBefore bs as = false := by
  fun_induction partsBefore as bs with
  | case1 => cases h
  | case2 => rfl
  | case3 => cases h
  | case4 as b bs ih => rw [partsBefore, if_pos rfl, ih h]
  | case5 a as b bs ne => rw [partsBefore, if_neg (Ne.symm ne), Part.before_asymm h]

theorem partsBefore_trans {as bs cs : List Part} (hab : partsBefore as bs = true)
    (hbc : partsBefore bs cs = true) : partsBefore as cs = true := by
  fun_induction partsBefore as bs generalizing cs with
  | case1 => cases hab
  | case2 b bs =>
    cases cs with
    | nil => cases hbc
    | cons c cs => rfl
  | case3 => cases hab
  | case4 as b bs ih =>
    cases cs with
    | nil => cases hbc
    | cons c cs =>
      rw [partsBefore] at hbc ⊢
      split
      · next same => exact ih hab (by rwa [if_pos same] at hbc)
      · next ne => rwa [if_neg ne] at hbc
  | case5 a as b bs ne =>
    cases cs with
    | nil => cases hbc
    | cons c cs =>
      rw [partsBefore] at hbc ⊢
      by_cases same : b = c
      · subst same
        rwa [if_neg ne]
      · rw [if_neg same] at hbc
        have less := Part.before_trans hab hbc
        rw [if_neg ?_]
        · exact less
        · rintro rfl
          rw [Part.before_asymm hab] at hbc
          cases hbc

theorem before_asymm {a b : String} (h : before a b = true) : before b a = false :=
  partsBefore_asymm h

theorem before_trans {a b c : String} (hab : before a b = true) (hbc : before b c = true) :
    before a c = true :=
  partsBefore_trans hab hbc

end Path

namespace Include.Graph

/-! ## Lists of paths -/

/-- Each path comes once, and none before one that it follows in the order of paths. -/
def Sorted (paths : List String) : Prop :=
  paths.Pairwise fun a b => a ≠ b ∧ Path.before b a = false

theorem Sorted.nodup {paths : List String} (h : Sorted paths) : paths.Nodup :=
  h.imp And.left

theorem mem_insertPath {path p : String} {paths : List String} :
    p ∈ insertPath path paths ↔ p = path ∨ p ∈ paths := by
  fun_induction insertPath path paths with
  | case1 => simp
  | case2 => simp
  | case3 => simp
  | case4 p' ps ne less ih => rw [List.mem_cons, ih, List.mem_cons]; tauto

theorem Sorted.insertPath {path : String} {paths : List String} (h : Sorted paths) :
    Sorted (insertPath path paths) := by
  fun_induction Graph.insertPath path paths with
  | case1 => exact List.pairwise_singleton _ _
  | case2 => exact h
  | case3 p ps ne less =>
    obtain ⟨after, rest⟩ := List.pairwise_cons.mp h
    refine List.pairwise_cons.mpr ⟨fun q hq => ?_, h⟩
    rcases List.mem_cons.mp hq with rfl | hq
    · exact ⟨Ne.symm ne, Path.before_asymm less⟩
    · have later := (after q hq).2
      constructor
      · rintro rfl
        rw [less] at later
        cases later
      · by_contra early
        rw [Path.before_trans (Bool.of_not_eq_false early) less] at later
        cases later
  | case4 p ps ne notLess ih =>
    obtain ⟨after, rest⟩ := List.pairwise_cons.mp h
    refine List.pairwise_cons.mpr ⟨fun q hq => ?_, ih rest⟩
    rcases mem_insertPath.mp hq with rfl | hq
    · exact ⟨ne, Bool.of_not_eq_true notLess⟩
    · exact after q hq

/-! ## Proper graphs -/

/-- The paths of the headers. -/
def paths (g : Graph) : List String := g.map (·.path)

/-- Every path names one header, and includes are listed in order. -/
structure Proper (g : Graph) : Prop where
  nodup : g.paths.Nodup
  sorted : ∀ n ∈ g, Sorted n.includes

theorem proper_nil : Proper [] := ⟨List.nodup_nil, nofun⟩

theorem has_iff {g : Graph} {path : String} : g.has path = true ↔ path ∈ g.paths := by
  simp [has, paths]

theorem add_of_mem {g : Graph} {path : String} (h : path ∈ g.paths) : g.add path = g :=
  if_pos (has_iff.mpr h)

theorem add_of_not_mem {g : Graph} {path : String} (h : path ∉ g.paths) :
    g.add path = g ++ [{ path := path }] :=
  if_neg (mt has_iff.mp h)

theorem mem_paths_add {g : Graph} {path p : String} :
    p ∈ (g.add path).paths ↔ p ∈ g.paths ∨ p = path := by
  by_cases h : path ∈ g.paths
  · rw [add_of_mem h]
    exact ⟨.inl, fun hp => hp.elim id fun e => e ▸ h⟩
  · rw [add_of_not_mem h]
    simp [paths]

theorem Proper.add {g : Graph} (h : g.Proper) (path : String) : (g.add path).Proper := by
  by_cases has : path ∈ g.paths
  · rwa [add_of_mem has]
  · rw [add_of_not_mem has]
    constructor
    case nodup =>
      rw [paths, List.map_append]
      refine h.nodup.append (List.nodup_singleton path) fun p hp hq => has ?_
      rwa [← show p = path from List.mem_singleton.mp hq]
    case sorted =>
      intro n hn
      rcases List.mem_append.mp hn with hn | hn
      · exact h.sorted n hn
      · rw [List.mem_singleton.mp hn]
        exact List.Pairwise.nil

@[simp] theorem paths_connect (g : Graph) (includer included : String) :
    (g.connect includer included).paths = g.paths := by
  rw [connect, paths, List.map_map]
  refine List.map_congr_left fun n _ => ?_
  rw [Function.comp_apply]
  split <;> rfl

theorem Proper.connect {g : Graph} (h : g.Proper) (includer included : String) :
    (g.connect includer included).Proper := by
  constructor
  case nodup => rw [paths_connect]; exact h.nodup
  case sorted =>
    intro n hn
    obtain ⟨old, mem, rfl⟩ := List.mem_map.mp hn
    split
    · exact (h.sorted old mem).insertPath
    · exact h.sorted old mem

/-- The graph is built by adding headers and connecting them. -/
inductive Built : Graph → Prop where
  | empty : Built []
  | add {g : Graph} (h : Built g) (path : String) : Built (g.add path)
  | connect {g : Graph} (h : Built g) (includer included : String) :
    Built (g.connect includer included)

theorem Built.proper {g : Graph} (h : Built g) : g.Proper := by
  induction h with
  | empty => exact proper_nil
  | add _ path ih => exact ih.add path
  | connect _ includer included ih => exact ih.connect includer included

/-- The graph records that one header includes another. -/
def Connects (g : Graph) (a b : String) : Prop := ∃ n ∈ g, n.path = a ∧ b ∈ n.includes

theorem Connects.mem_paths {g : Graph} {a b : String} (h : g.Connects a b) : a ∈ g.paths := by
  obtain ⟨n, hn, rfl, -⟩ := h
  exact List.mem_map_of_mem hn

theorem connects_add {g : Graph} {path a b : String} :
    (g.add path).Connects a b ↔ g.Connects a b := by
  by_cases h : path ∈ g.paths
  · rw [add_of_mem h]
  · rw [add_of_not_mem h]
    simp [Connects]

theorem connects_connect {g : Graph} {includer included a b : String} :
    (g.connect includer included).Connects a b ↔
      g.Connects a b ∨ (a = includer ∧ includer ∈ g.paths ∧ b = included) := by
  constructor
  · rintro ⟨n, hn, rfl, mem⟩
    obtain ⟨old, hold, rfl⟩ := List.mem_map.mp hn
    by_cases same : old.path = includer
    · subst same
      rw [if_pos rfl] at mem
      rcases mem_insertPath.mp mem with rfl | mem
      · exact .inr ⟨by rw [if_pos rfl], List.mem_map_of_mem hold, rfl⟩
      · exact .inl ⟨old, hold, by rw [if_pos rfl], mem⟩
    · rw [if_neg same] at mem
      exact .inl ⟨old, hold, by rw [if_neg same], mem⟩
  · rintro (⟨n, hn, rfl, mem⟩ | ⟨rfl, inside, rfl⟩)
    · refine ⟨_, List.mem_map_of_mem hn, ?_, ?_⟩
      · split <;> rfl
      · split
        · exact mem_insertPath.mpr (.inr mem)
        · exact mem
    · obtain ⟨n, hn, rfl⟩ := List.mem_map.mp inside
      refine ⟨_, List.mem_map_of_mem hn, ?_, ?_⟩
      · split <;> rfl
      · rw [if_pos rfl]
        exact mem_insertPath.mpr (.inl rfl)

/-- A path names one header. -/
theorem Proper.eq_of_path {g : Graph} (h : g.Proper) {m n : Node} (hm : m ∈ g) (hn : n ∈ g)
    (same : m.path = n.path) : m = n :=
  List.inj_on_of_nodup_map h.nodup hm hn same

end Include.Graph

end ConstLookup
