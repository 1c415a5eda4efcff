import ConstLookup.Proofs.Include.Order

/-!
  The headers that are listed when there is no processing order. A header is never taken if and
  only if a cycle of includes leads to it (`not_taken_iff`): whatever leads to a header that is
  taken is taken after it, so no cycle does; and a header that is left is included by another one
  that is left, and so on back to a cycle. These headers are listed in the order of discovery
  (`stuck_eq`). So every header of a cycle is listed. There are no others in the list exactly if
  the headers of cycles include only such headers (`stuck_iff`); a header that includes itself and
  one more is enough for another one (`stuck_beside_cycle`).
-/

namespace ConstLookup.Include.Graph

open Relation

variable {g : Graph}

/-- What leads to a listed header is listed behind it. -/
theorem Settled.idxOf_lt_of_walk (h : g.Proper) {order : List String} (settled : Settled g order)
    (nodup : order.Nodup) {a b : String} (walk : TransGen g.Edge a b) (hb : b ∈ order) :
    a ∈ order ∧ order.idxOf b < order.idxOf a := by
  induction walk using TransGen.head_induction_on with
  | single e =>
    obtain ⟨-, n, hn, rfl, mem⟩ := (edge_iff h).mp e
    exact ⟨settled.mem hb hn mem, settled.idxOf_lt nodup hb hn mem⟩
  | head e _ ih =>
    obtain ⟨-, n, hn, rfl, mem⟩ := (edge_iff h).mp e
    exact ⟨settled.mem ih.1 hn mem, ih.2.trans (settled.idxOf_lt nodup ih.1 hn mem)⟩

/-- The headers that are never taken are those that a cycle leads to. -/
theorem not_taken_iff (h : g.Proper) {p : String} (hp : p ∈ g.paths) :
    p ∉ (takeReady g g.length g.sortingStart).taken ↔
      ∃ q, TransGen g.Edge q q ∧ ReflTransGen g.Edge q p := by
  obtain ⟨nodup, -, settled, waits⟩ := taken_spec h
  constructor
  · intro left
    -- Back from the header, among those that are left and lead to it, there is always another one.
    obtain ⟨q, ⟨-, walk⟩, cycle⟩ := exists_cycle h
      (fun q => q ∉ (takeReady g g.length g.sortingStart).taken ∧ ReflTransGen g.Edge q p)
      ⟨p, hp, left, .refl⟩ fun b hb ⟨left, walk⟩ => by
        obtain ⟨n, hn, mem, left⟩ := waits b hb left
        exact ⟨n, hn, mem, left, .head ((edge_iff h).mpr ⟨hb, n, hn, rfl, mem⟩) walk⟩
    exact ⟨q, cycle, walk⟩
  · rintro ⟨q, cycle, walk⟩ taken
    have first : q ∈ (takeReady g g.length g.sortingStart).taken := by
      rcases reflTransGen_iff_eq_or_transGen.mp walk with rfl | walk
      · exact taken
      · exact (settled.idxOf_lt_of_walk h nodup walk taken).1
    exact Nat.lt_irrefl _ (settled.idxOf_lt_of_walk h nodup cycle first).2

/-- Listed are the headers that were not taken. -/
theorem stuck_eq (h : g.Proper) {stuck : List String} (error : g.processingOrder = .error stuck) :
    stuck = g.paths.filter (· ∉ (takeReady g g.length g.sortingStart).taken) := by
  obtain ⟨inv, none⟩ := takeReady_spec h (releasing_sortingStart h) (Nat.add_zero _)
  have mem_iff := inv.mem_iff
  rw [none, List.nil_append] at mem_iff
  unfold processingOrder at error
  dsimp only at error
  split at error
  · obtain rfl := Except.error.inj error
    rw [inv.waits, paths, List.filter_map, List.filter_map, List.map_map]
    refine congrArg (List.map _) (List.filter_congr fun n hn => decide_eq_decide.mpr ?_)
    rw [mem_iff, not_and]
    simp [paths, List.mem_map_of_mem hn, Nat.pos_iff_ne_zero]
  · cases error

theorem mem_stuck_iff (h : g.Proper) {stuck : List String}
    (error : g.processingOrder = .error stuck) {p : String} :
    p ∈ stuck ↔ ∃ q, TransGen g.Edge q q ∧ ReflTransGen g.Edge q p := by
  rw [stuck_eq h error, List.mem_filter, decide_eq_true_eq]
  constructor
  · rintro ⟨hp, left⟩
    exact (not_taken_iff h hp).mp left
  · rintro ⟨q, cycle, walk⟩
    have hp : p ∈ g.paths := by
      obtain ⟨a, -, last⟩ := TransGen.tail'_iff.mp (cycle.trans_left walk)
      exact ((edge_iff h).mp last).1
    exact ⟨hp, (not_taken_iff h hp).mpr ⟨q, cycle, walk⟩⟩

/-- Listed, in the order of discovery, are the headers that a cycle leads to: those of cycles
among them, and no others exactly if the headers of cycles include only such ones. -/
theorem stuck_iff (built : Built g) {stuck : List String}
    (error : g.processingOrder = .error stuck) :
    stuck.Sublist g.paths ∧
      (∀ p, p ∈ stuck ↔ ∃ q, TransGen g.Edge q q ∧ ReflTransGen g.Edge q p) ∧
      (∀ p, TransGen g.Edge p p → p ∈ stuck) ∧
      ((∀ p, p ∈ stuck ↔ TransGen g.Edge p p) ↔
        ∀ a b, TransGen g.Edge a a → g.Edge a b → TransGen g.Edge b b) := by
  have h := built.proper
  have mem_iff {p : String} := mem_stuck_iff h error (p := p)
  have inside (p : String) (cycle : TransGen g.Edge p p) : p ∈ stuck :=
    mem_iff.mpr ⟨p, cycle, .refl⟩
  refine ⟨?_, fun p => mem_iff, inside, fun exactly a b cycle e => ?_, fun closed p => ?_⟩
  · rw [stuck_eq h error]
    exact List.filter_sublist
  · exact (exactly b).mp (mem_iff.mpr ⟨a, cycle, .single e⟩)
  · refine ⟨fun mem => ?_, inside p⟩
    obtain ⟨q, cycle, walk⟩ := mem_iff.mp mem
    induction walk with
    | refl => exact cycle
    | tail front e ih =>
      exact closed _ _ (ih (mem_iff.mpr ⟨q, cycle, front⟩)) e

/-- A header that includes itself and another one. -/
def selfish : Graph :=
  ((Graph.add (Graph.add [] "/a.h") "/k.h").connect "/a.h" "/a.h").connect "/a.h" "/k.h"

theorem selfish_built : Built selfish :=
  ((((Built.empty).add "/a.h").add "/k.h").connect "/a.h" "/a.h").connect "/a.h" "/k.h"

theorem selfish_stuck : selfish.processingOrder = .error ["/a.h", "/k.h"] := by decide +kernel

theorem stuck_selfish :
    Built selfish ∧ selfish.processingOrder = .error ["/a.h", "/k.h"] ∧
      ["/a.h", "/k.h"].Sublist selfish.paths ∧
      (∀ p, p ∈ ["/a.h", "/k.h"] ↔
        ∃ q, TransGen selfish.Edge q q ∧ ReflTransGen selfish.Edge q p) ∧
      (∀ p, TransGen selfish.Edge p p → p ∈ ["/a.h", "/k.h"]) ∧
      ((∀ p, p ∈ ["/a.h", "/k.h"] ↔ TransGen selfish.Edge p p) ↔
        ∀ a b, TransGen selfish.Edge a a → selfish.Edge a b → TransGen selfish.Edge b b) :=
  ⟨selfish_built, selfish_stuck, stuck_iff selfish_built selfish_stuck⟩

/-- The other header includes none, so it is on no cycle, but it is listed. -/
theorem stuck_beside_cycle :
    ¬ ∀ g : Graph, Built g → ∀ stuck, g.processingOrder = .error stuck →
      ∀ p, p ∈ stuck ↔ TransGen g.Edge p p := by
  intro h
  have cycle := (h selfish selfish_built _ selfish_stuck "/k.h").mp (by decide)
  obtain ⟨p, first, -⟩ := TransGen.head'_iff.mp cycle
  have none : selfish.targets "/k.h" = [] := by decide +kernel
  rw [Edge, none] at first
  cases first

end ConstLookup.Include.Graph
