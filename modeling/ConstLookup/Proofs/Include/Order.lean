import ConstLookup.Proofs.Include.Graph
import Mathlib.Data.List.Perm.Subperm
import Mathlib.Data.Fintype.Card
import Mathlib.Data.Set.Finite.List
import Mathlib.Order.WellFounded

/-!
  The processing order of a proper graph. A header is taken when no header that is left includes
  it, so the headers taken form a list in which whatever includes a header stands behind it
  (`Settled`). If all are taken, this list is the order (`processingOrder_ok`). If some are left,
  each of them is included by another one that is left, and so they hold a cycle
  (`processingOrder_error`).
-/

namespace ConstLookup.Include.Graph

open Relation

variable {g : Graph}

/-- A header of the graph includes a header of the graph. -/
def Edge (g : Graph) (a b : String) : Prop := b ∈ g.targets a

theorem Proper.targets_eq (h : g.Proper) {n : Node} (hn : n ∈ g) :
    g.targets n.path = n.includes.filter g.has := by
  unfold targets
  cases found : g.find? (·.path = n.path) with
  | none => exact absurd (List.find?_eq_none.mp found n hn) (by simp)
  | some m =>
    have same : m.path = n.path := by simpa using List.find?_some found
    rw [h.eq_of_path (List.mem_of_find?_eq_some found) hn same]

theorem edge_iff (h : g.Proper) {a b : String} :
    g.Edge a b ↔ b ∈ g.paths ∧ g.Connects a b := by
  constructor
  · intro e
    unfold Edge targets at e
    split at e
    · next n found =>
      obtain ⟨mem, inside⟩ := List.mem_filter.mp e
      exact ⟨has_iff.mp inside, n, List.mem_of_find?_eq_some found,
        by simpa using List.find?_some found, mem⟩
    · exact absurd e List.not_mem_nil
  · rintro ⟨inside, n, hn, rfl, mem⟩
    rw [Edge, h.targets_eq hn]
    exact List.mem_filter.mpr ⟨mem, has_iff.mpr inside⟩

/-! ## How many headers include a header -/

/-- How many headers that are not taken include a header. -/
def waiting (g : Graph) (taken : List String) (path : String) : Nat :=
  g.countP fun n => n.includes.contains path && !taken.contains n.path

theorem waiting_nil (g : Graph) (path : String) : g.waiting [] path = g.includerCount path := by
  simp [waiting, includerCount, List.countP_eq_length_filter]

theorem waiting_eq_zero {taken : List String} {path : String} :
    g.waiting taken path = 0 ↔ ∀ n ∈ g, path ∈ n.includes → n.path ∈ taken := by
  simp [waiting, List.countP_eq_zero]

/-- Taking a header ends the wait of each header that it includes for it. -/
theorem waiting_take (h : g.Proper) {n : Node} (hn : n ∈ g) {taken : List String}
    (left : n.path ∉ taken) (path : String) :
    g.waiting taken path =
      g.waiting (n.path :: taken) path + if path ∈ n.includes then 1 else 0 := by
  obtain ⟨before, after, rfl⟩ := List.append_of_mem hn
  have nodup := h.nodup
  rw [paths, List.map_append, List.map_cons] at nodup
  have apart := (List.nodup_cons.mp (List.nodup_middle.mp nodup)).1
  have others {m : Node} (hm : m ∈ before ++ after) :
      (m.includes.contains path && !taken.contains m.path) =
        (m.includes.contains path && !(n.path :: taken).contains m.path) := by
    have ne : ¬ m.path = n.path := fun e => apart (by
      rw [← List.map_append]
      exact e ▸ List.mem_map_of_mem hm)
    simp [ne]
  have front : before.countP (fun m => m.includes.contains path && !taken.contains m.path) =
      before.countP fun m => m.includes.contains path && !(n.path :: taken).contains m.path :=
    List.countP_congr fun m hm => by rw [others (List.mem_append_left _ hm)]
  have back : after.countP (fun m => m.includes.contains path && !taken.contains m.path) =
      after.countP fun m => m.includes.contains path && !(n.path :: taken).contains m.path :=
    List.countP_congr fun m hm => by rw [others (List.mem_append_right _ hm)]
  rw [waiting, waiting, List.countP_append, List.countP_append, List.countP_cons,
    List.countP_cons, front, back]
  by_cases mem : path ∈ n.includes
  · simp [mem, left]
    omega
  · simp [mem]

/-! ## Taking headers -/

/-- Whatever includes a listed header is listed behind it. -/
def Settled (g : Graph) : List String → Prop
  | [] => True
  | path :: rest => (∀ n ∈ g, path ∈ n.includes → n.path ∈ rest) ∧ Settled g rest

/-- What is known while a header that was taken releases the headers that it includes; it has
still to release `rest`. -/
structure Releasing (g : Graph) (rest : List String) (s : Sorting) : Prop where
  waits : s.waits =
    g.map fun n => (n.path, g.waiting s.taken n.path + if n.path ∈ rest then 1 else 0)
  nodup : (s.ready ++ s.taken).Nodup
  mem_iff : ∀ p, p ∈ s.ready ++ s.taken ↔
    p ∈ g.paths ∧ g.waiting s.taken p + (if p ∈ rest then 1 else 0) = 0
  settled : Settled g s.taken

theorem find?_waits (count : String → Nat) {path : String} (h : path ∈ g.paths) :
    (g.map fun n => (n.path, count n.path)).find? (·.1 = path) = some (path, count path) := by
  induction g with
  | nil => cases h
  | cons n g ih =>
    by_cases same : n.path = path
    · simp [same]
    · rw [List.map_cons, List.find?_cons_of_neg (by simpa using same)]
      exact ih ((List.mem_cons.mp h).resolve_left (Ne.symm same))

theorem Releasing.release {rest : List String} {s : Sorting} {path : String}
    (h : Releasing g (path :: rest) s) (inside : path ∈ g.paths) (apart : path ∉ rest) :
    Releasing g rest (release s path) := by
  have waits : (s.waits.map fun w => if w.1 = path then (w.1, w.2 - 1) else w) =
      g.map fun n => (n.path, g.waiting s.taken n.path + if n.path ∈ rest then 1 else 0) := by
    rw [h.waits, List.map_map]
    refine List.map_congr_left fun n _ => ?_
    by_cases same : n.path = path
    · simp [same, apart]
    · simp [same]
  have found := find?_waits (fun p => g.waiting s.taken p + if p ∈ rest then 1 else 0) inside
  have new : path ∉ s.ready ++ s.taken := fun mem => by
    have := ((h.mem_iff path).mp mem).2
    simp at this
  have others {p : String} (ne : p ≠ path) : p ∈ path :: rest ↔ p ∈ rest := by simp [ne]
  constructor
  case waits => exact waits
  case settled => exact h.settled
  case nodup =>
    unfold Graph.release
    dsimp only
    split
    · rw [List.append_assoc]
      exact (List.perm_middle.nodup_iff).mpr (List.nodup_cons.mpr ⟨new, h.nodup⟩)
    · exact h.nodup
  case mem_iff =>
    intro p
    unfold Graph.release
    dsimp only
    rw [waits, found]
    by_cases same : p = path
    · subst same
      by_cases free : g.waiting s.taken p = 0
      · simp [free, apart, inside]
      · simpa [free, apart] using new
    · have old := h.mem_iff p
      rw [if_congr (others same) rfl rfl] at old
      rw [← old]
      by_cases free : g.waiting s.taken path = 0 <;> simp [free, apart, same]

theorem Releasing.releaseAll {rest : List String} {s : Sorting} (h : Releasing g rest s)
    (nodup : rest.Nodup) (inside : ∀ p ∈ rest, p ∈ g.paths) :
    Releasing g [] (rest.foldl Graph.release s) := by
  induction rest generalizing s with
  | nil => exact h
  | cons path rest ih =>
    obtain ⟨apart, nodup⟩ := List.nodup_cons.mp nodup
    exact ih (h.release (inside path List.mem_cons_self) apart) nodup fun p hp =>
      inside p (List.mem_cons_of_mem path hp)

theorem taken_release (s : Sorting) (path : String) : (release s path).taken = s.taken := rfl

theorem taken_releaseAll (rest : List String) (s : Sorting) :
    (rest.foldl release s).taken = s.taken := by
  induction rest generalizing s with
  | nil => rfl
  | cons path rest ih => rw [List.foldl_cons, ih, taken_release]

theorem releasing_sortingStart (h : g.Proper) : Releasing g [] g.sortingStart := by
  constructor
  case waits =>
    simp [sortingStart, waiting_nil]
  case nodup =>
    have sub : (((g.map fun n => (n.path, g.includerCount n.path)).filter (·.2 = 0)).map
        (·.1)).Sublist g.paths := by
      have := (List.filter_sublist (p := fun w : String × Nat => decide (w.2 = 0))
        (l := g.map fun n => (n.path, g.includerCount n.path))).map Prod.fst
      simpa [paths, Function.comp_def] using this
    simpa [sortingStart] using sub.nodup h.nodup
  case mem_iff =>
    intro p
    simp only [sortingStart, List.append_nil, List.mem_map, List.mem_filter, decide_eq_true_eq,
      waiting_nil, List.not_mem_nil, if_false, Nat.add_zero, paths]
    constructor
    · rintro ⟨w, ⟨⟨n, hn, rfl⟩, zero⟩, rfl⟩
      exact ⟨⟨n, hn, rfl⟩, zero⟩
    · rintro ⟨⟨n, hn, rfl⟩, zero⟩
      exact ⟨_, ⟨⟨n, hn, rfl⟩, zero⟩, rfl⟩
  case settled => trivial

theorem targets_nodup (h : g.Proper) (path : String) : (g.targets path).Nodup := by
  unfold targets
  split
  · next n found => exact (h.sorted n (List.mem_of_find?_eq_some found)).nodup.filter _
  · exact List.nodup_nil

theorem mem_paths_of_target {path p : String} (hp : p ∈ g.targets path) : p ∈ g.paths := by
  unfold targets at hp
  split at hp
  · exact has_iff.mp (List.mem_filter.mp hp).2
  · cases hp

/-- A ready header that was taken has still to release all that it includes. -/
theorem Releasing.taking (h : g.Proper) {s : Sorting} (inv : Releasing g [] s) {path : String}
    {ready : List String} (first : s.ready = path :: ready) :
    Releasing g (g.targets path) { s with ready := ready, taken := path :: s.taken } := by
  have mem : path ∈ s.ready ++ s.taken := by rw [first]; exact List.mem_cons_self
  obtain ⟨inside, free⟩ := (inv.mem_iff path).mp mem
  obtain ⟨n, hn, rfl⟩ := List.mem_map.mp inside
  have perm : (s.ready ++ s.taken).Perm (ready ++ n.path :: s.taken) := by
    rw [first]
    exact List.perm_middle.symm
  have nodup := perm.nodup_iff.mp inv.nodup
  have left : n.path ∉ s.taken := fun hp =>
    (List.nodup_cons.mp (List.perm_middle.nodup_iff.mp nodup)).1 (List.mem_append_right _ hp)
  have released {p : String} (hp : p ∈ g.paths) :
      g.waiting s.taken p = g.waiting (n.path :: s.taken) p +
        if p ∈ g.targets n.path then 1 else 0 := by
    have same : p ∈ g.targets n.path ↔ p ∈ n.includes := by
      rw [h.targets_eq hn, List.mem_filter]
      exact and_iff_left (has_iff.mpr hp)
    rw [waiting_take h hn left, if_congr same rfl rfl]
  constructor
  case waits =>
    rw [inv.waits]
    refine List.map_congr_left fun m hm => ?_
    rw [← released (List.mem_map_of_mem hm)]
    simp
  case nodup => exact nodup
  case mem_iff =>
    intro p
    rw [← perm.mem_iff, inv.mem_iff]
    refine and_congr_right fun hp => ?_
    rw [← released hp]
    simp
  case settled =>
    refine ⟨?_, inv.settled⟩
    exact waiting_eq_zero.mp (by simpa using free)

/-- Taking a ready header keeps what is known. -/
theorem Releasing.take (h : g.Proper) {s : Sorting} (inv : Releasing g [] s) {path : String}
    {ready : List String} (first : s.ready = path :: ready) :
    Releasing g [] ((g.targets path).foldl Graph.release
      { s with ready := ready, taken := path :: s.taken }) :=
  (inv.taking h first).releaseAll (targets_nodup h path) fun _ => mem_paths_of_target

/-- When no step is left, none is ready. -/
theorem takeReady_spec (h : g.Proper) {steps : Nat} {s : Sorting} (inv : Releasing g [] s)
    (enough : steps + s.taken.length = g.length) :
    Releasing g [] (takeReady g steps s) ∧ (takeReady g steps s).ready = [] := by
  induction steps generalizing s with
  | zero =>
    refine ⟨inv, ?_⟩
    have inside : s.ready ++ s.taken ⊆ g.paths := fun p hp => ((inv.mem_iff p).mp hp).1
    have le := (List.subperm_of_subset inv.nodup inside).length_le
    rw [List.length_append, paths, List.length_map] at le
    exact List.length_eq_zero_iff.mp (by simp only [takeReady]; omega)
  | succ steps ih =>
    rw [takeReady]
    split
    · next none => exact ⟨inv, none⟩
    · next path ready first =>
      refine ih (Releasing.take h inv first) ?_
      rw [taken_releaseAll, List.length_cons]
      omega

/-- The headers taken in the end, with what is known of them. -/
theorem taken_spec (h : g.Proper) :
    let s := takeReady g g.length g.sortingStart
    s.taken.Nodup ∧ s.taken ⊆ g.paths ∧ Settled g s.taken ∧
      ∀ p ∈ g.paths, p ∉ s.taken → ∃ n ∈ g, p ∈ n.includes ∧ n.path ∉ s.taken := by
  intro s
  obtain ⟨inv, none⟩ := takeReady_spec h (releasing_sortingStart h) (Nat.add_zero _)
  have nodup := inv.nodup
  have mem_iff := inv.mem_iff
  rw [none] at nodup mem_iff
  refine ⟨nodup, fun p hp => ((mem_iff p).mp hp).1, inv.settled, fun p hp left => ?_⟩
  have waits : g.waiting s.taken p ≠ 0 := fun zero => left ((mem_iff p).mpr ⟨hp, by simpa using zero⟩)
  rw [ne_eq, waiting_eq_zero] at waits
  push Not at waits
  exact waits

/-! ## The order -/

theorem Settled.mem {order : List String} (settled : Settled g order) {b : String}
    (hb : b ∈ order) {n : Node} (hn : n ∈ g) (mem : b ∈ n.includes) : n.path ∈ order := by
  induction order with
  | nil => cases hb
  | cons p rest ih =>
    rcases List.mem_cons.mp hb with rfl | hb
    · exact List.mem_cons_of_mem b (settled.1 n hn mem)
    · exact List.mem_cons_of_mem p (ih settled.2 hb)

/-- A listed header stands before those that include it. -/
theorem Settled.idxOf_lt {order : List String} (settled : Settled g order) (nodup : order.Nodup)
    {b : String} (hb : b ∈ order) {n : Node} (hn : n ∈ g) (mem : b ∈ n.includes) :
    order.idxOf b < order.idxOf n.path := by
  induction order with
  | nil => cases hb
  | cons p rest ih =>
    obtain ⟨apart, nodup⟩ := List.nodup_cons.mp nodup
    by_cases same : p = b
    · subst same
      have behind := settled.1 n hn mem
      have ne : p ≠ n.path := fun e => apart (e ▸ behind)
      rw [List.idxOf_cons_self, List.idxOf_cons_ne _ ne]
      omega
    · have hb := (List.mem_cons.mp hb).resolve_left (Ne.symm same)
      have ne : p ≠ n.path := fun e => apart (e ▸ settled.2.mem hb hn mem)
      have less := ih settled.2 nodup hb
      rw [List.idxOf_cons_ne _ same, List.idxOf_cons_ne _ ne]
      omega

/-- An order lists every header once, each before those that include it. -/
theorem processingOrder_ok (h : g.Proper) {order : List String}
    (ok : g.processingOrder = .ok order) :
    order.Perm g.paths ∧ ∀ a b, g.Edge a b → order.idxOf b < order.idxOf a := by
  unfold processingOrder at ok
  dsimp only at ok
  obtain ⟨nodup, inside, settled, -⟩ := taken_spec h
  split at ok
  · cases ok
  · next all =>
    obtain rfl := Except.ok.inj ok
    have perm := (List.subperm_of_subset nodup inside).perm_of_length_le (by
      rw [paths, List.length_map]
      omega)
    refine ⟨perm, fun a b e => ?_⟩
    obtain ⟨hb, n, hn, rfl, mem⟩ := (edge_iff h).mp e
    exact settled.idxOf_lt nodup (perm.mem_iff.mpr hb) hn mem

/-- Headers that are never ready hold a cycle: each of them is included by another one. -/
theorem exists_cycle (h : g.Proper) (left : String → Prop) (some : ∃ p ∈ g.paths, left p)
    (stuck : ∀ p ∈ g.paths, left p → ∃ n ∈ g, p ∈ n.includes ∧ left n.path) :
    ∃ p, left p ∧ TransGen g.Edge p p := by
  by_contra acyclic
  push Not at acyclic
  let Left := { p // p ∈ g.paths ∧ left p }
  have : Finite Left :=
    (g.paths.finite_toSet.subset fun p (hp : p ∈ g.paths ∧ left p) => hp.1).to_subtype
  have : IsTrans Left fun a b => TransGen g.Edge a.1 b.1 := ⟨fun _ _ _ => TransGen.trans⟩
  have : Std.Irrefl fun a b : Left => TransGen g.Edge a.1 b.1 := ⟨fun a => acyclic a.1 a.2.2⟩
  have wf := Finite.wellFounded_of_trans_of_irrefl fun a b : Left => TransGen g.Edge a.1 b.1
  obtain ⟨p, hp, hl⟩ := some
  obtain ⟨first, -, least⟩ := wf.has_min Set.univ ⟨⟨p, hp, hl⟩, trivial⟩
  obtain ⟨n, hn, mem, hl⟩ := stuck first.1 first.2.1 first.2.2
  have edge : g.Edge n.path first.1 := (edge_iff h).mpr ⟨first.2.1, n, hn, rfl, mem⟩
  exact least ⟨n.path, List.mem_map_of_mem hn, hl⟩ trivial (.single edge)

/-- Without an order there is a cycle of includes. -/
theorem processingOrder_error (h : g.Proper) {stuck : List String}
    (error : g.processingOrder = .error stuck) : ∃ p, TransGen g.Edge p p := by
  unfold processingOrder at error
  dsimp only at error
  obtain ⟨nodup, inside, -, waits⟩ := taken_spec h
  split at error
  · next fewer =>
    have some : ∃ p ∈ g.paths, p ∉ (takeReady g g.length g.sortingStart).taken := by
      by_contra none
      push Not at none
      have le := (List.subperm_of_subset h.nodup none).length_le
      rw [paths, List.length_map] at le
      omega
    obtain ⟨p, -, cycle⟩ := exists_cycle h _ some waits
    exact ⟨p, cycle⟩
  · cases error

/-- A graph with an order has no cycle of includes. -/
theorem acyclic_of_ok (h : g.Proper) {order : List String} (ok : g.processingOrder = .ok order)
    (p : String) : ¬ TransGen g.Edge p p := by
  have less {a b : String} (walk : TransGen g.Edge a b) : order.idxOf b < order.idxOf a := by
    induction walk with
    | single e => exact (processingOrder_ok h ok).2 _ _ e
    | tail _ e ih => exact ((processingOrder_ok h ok).2 _ _ e).trans ih
  exact fun cycle => Nat.lt_irrefl _ (less cycle)

end ConstLookup.Include.Graph
