import ConstLookup.Proofs.Include.Discover
import ConstLookup.Proofs.Include.Order

/-!
  The headers that a header needs, in processing order (`order_spec`): over every tree of files,
  the run fails if more headers are needed than allowed, fails if needed headers include each
  other in a cycle, and otherwise lists every needed header once, after all that it includes. The
  header that was asked for comes last, because it is the only one that none includes.
-/

namespace ConstLookup.Include.Resolver

open Relation

variable {programs : String → List String → StateM FileTree (Except IoFault Completed)}
  {r : Resolver} {t : FileTree} {root : String}

/-- Headers that are needed include each other in a cycle, or one includes itself. -/
def HasCycle (r : Resolver) (t : FileTree) (root : String) : Prop :=
  ∃ p ∈ r.needed t root, TransGen (r.Includes t) p p

/-- A list of the headers that are needed, each once and after all that it includes. -/
structure InOrder (r : Resolver) (t : FileTree) (root : String) (order : List String) :
    Prop where
  nodup : order.Nodup
  mem_iff : ∀ p, p ∈ order ↔ p ∈ r.needed t root
  includes : ∀ a ∈ order, ∀ b, r.Includes t a b → order.idxOf b < order.idxOf a
  root_last : order.getLast? = some root

/-! ## How many headers are needed -/

theorem encard_mem {l : List String} (nodup : l.Nodup) : {p | p ∈ l}.encard = l.length := by
  rw [← List.toFinset_card_of_nodup nodup, ← Set.encard_coe_eq_coe_finsetCard]
  congr 1
  ext p
  simp

theorem Exceeds.encard_lt (h : Exceeds r t root) : (r.budget : ℕ∞) < (r.needed t root).encard := by
  obtain ⟨l, nodup, mem, count⟩ := h
  have le : {p | p ∈ l}.encard ≤ (r.needed t root).encard := Set.encard_le_encard mem
  rw [encard_mem nodup, count] at le
  exact lt_of_lt_of_le (by exact_mod_cast Nat.lt_succ_self r.budget) le

theorem Complete.encard_le {g : Graph} (h : Complete r t root g) :
    (r.needed t root).encard ≤ r.budget := by
  have same : r.needed t root = {p | p ∈ g.paths} := Set.ext fun p => (h.mem_iff p).symm
  rw [same, encard_mem h.proper.nodup, Graph.paths, List.length_map]
  exact_mod_cast h.allowed

/-! ## The graph of the headers that are needed -/

theorem Complete.edge_iff {g : Graph} (h : Complete r t root g) {a b : String} :
    g.Edge a b ↔ a ∈ r.needed t root ∧ r.Includes t a b := by
  rw [Graph.edge_iff h.proper]
  constructor
  · rintro ⟨-, connects⟩
    have mem := (h.mem_iff a).mp connects.mem_paths
    exact ⟨mem, (h.connects a mem b).mp connects⟩
  · rintro ⟨mem, includes⟩
    exact ⟨(h.mem_iff b).mpr (ReflTransGen.tail mem includes), (h.connects a mem b).mpr includes⟩

theorem Complete.hasCycle_iff {g : Graph} (h : Complete r t root g) :
    HasCycle r t root ↔ ∃ p, TransGen g.Edge p p := by
  constructor
  · rintro ⟨p, mem, cycle⟩
    have walk {q : String} (hq : TransGen (r.Includes t) p q) : TransGen g.Edge p q := by
      induction hq with
      | single e => exact .single (h.edge_iff.mpr ⟨mem, e⟩)
      | tail front e ih =>
        exact ih.tail (h.edge_iff.mpr ⟨ReflTransGen.trans mem front.to_reflTransGen, e⟩)
    exact ⟨p, walk cycle⟩
  · rintro ⟨p, cycle⟩
    obtain ⟨q, first, -⟩ := TransGen.head'_iff.mp cycle
    exact ⟨p, (h.edge_iff.mp first).1, TransGen.mono (fun _ _ e => (h.edge_iff.mp e).2) _ _ cycle⟩

/-- Every needed header but the root is included by a needed one. -/
theorem exists_includer {p : String} (mem : p ∈ r.needed t root) (ne : p ≠ root) :
    ∃ a ∈ r.needed t root, r.Includes t a p := by
  cases mem with
  | refl => exact absurd rfl ne
  | tail front e => exact ⟨_, front, e⟩

theorem Complete.inOrder {g : Graph} (h : Complete r t root g) {order : List String}
    (ok : g.processingOrder = .ok order) : InOrder r t root order := by
  obtain ⟨perm, before⟩ := Graph.processingOrder_ok h.proper ok
  have nodup := perm.nodup_iff.mpr h.proper.nodup
  have mem_iff (p : String) : p ∈ order ↔ p ∈ r.needed t root := perm.mem_iff.trans (h.mem_iff p)
  constructor
  case nodup => exact nodup
  case mem_iff => exact mem_iff
  case includes => exact fun a ha b e => before a b (h.edge_iff.mpr ⟨(mem_iff a).mp ha, e⟩)
  case root_last =>
    have nonempty : order ≠ [] := List.ne_nil_of_mem ((mem_iff root).mpr ReflTransGen.refl)
    rw [List.getLast?_eq_some_getLast nonempty]
    refine congrArg some ?_
    by_contra ne
    obtain ⟨a, ha, e⟩ := exists_includer ((mem_iff _).mp (List.getLast_mem nonempty)) ne
    have less := before _ _ (h.edge_iff.mpr ⟨ha, e⟩)
    have inside := List.idxOf_lt_length_iff.mpr ((mem_iff a).mpr ha)
    have last : order.idxOf (order.getLast nonempty) = order.length - 1 := by
      rw [List.getLast_eq_getElem]
      exact nodup.idxOf_getElem _ _
    omega

/-- Headers that can be read and include none but each other are all that is needed. -/
theorem needed_subset {l : List String} (start : root ∈ l)
    (closed : ∀ a ∈ l, ∃ source, t.source? a = some source ∧ r.targetsOf t a source ⊆ l) :
    ∀ p ∈ r.needed t root, p ∈ l := by
  intro p mem
  induction mem with
  | refl => exact start
  | tail _ e ih =>
    obtain ⟨source, text, inside⟩ := closed _ ih
    exact inside ((includes_iff text).mp e)

/-! ## The run -/

theorem order_run (outcome : Except RunError Graph) {name : String}
    (run : (r.discover (FileTree.host programs) name).run.run t = (outcome, t)) :
    (r.order (FileTree.host programs) name).run.run t =
      (outcome.bind fun g => g.processingOrder.mapError .includeCycle, t) := by
  cases outcome with
  | error e => exact run_bind_error run _
  | ok g =>
    rw [order, run_bind_ok run]
    cases ordered : g.processingOrder with
    | ok paths => simp [Except.bind, Except.mapError, ordered]; rfl
    | error paths => simp [Except.bind, Except.mapError, ordered]; rfl

/-- Over every tree of files whose needed headers can be read: the run fails exactly if there are
too many needed headers, or else exactly if they have a cycle, and otherwise gives them in
processing order. -/
theorem order_spec (programs : String → List String → StateM FileTree (Except IoFault Completed))
    (r : Resolver) (t : FileTree) {name root : String} (known : t.canonical? name = some root)
    (readable : ∀ p ∈ r.needed t root, ∃ source, t.source? p = some source) :
    ∃ outcome, (r.order (FileTree.host programs) name).run.run t = (outcome, t) ∧
      ((∃ found allowed, outcome = .error (.tooManyHeaders found allowed)) ↔
        ((max r.maxHeaders 1 : ℕ) : ℕ∞) < (r.needed t root).encard) ∧
      ((r.needed t root).encard ≤ (max r.maxHeaders 1 : ℕ) →
        ((∃ stuck, outcome = .error (.includeCycle stuck)) ↔ HasCycle r t root) ∧
        (¬ HasCycle r t root → ∃ order, outcome = .ok order ∧ InOrder r t root order)) := by
  have budget : max r.maxHeaders 1 = r.budget := Nat.max_comm _ _
  rw [budget]
  obtain ⟨outcome, run, found⟩ := discover_spec programs known readable
  refine ⟨_, order_run outcome run, ?_⟩
  cases outcome with
  | error e =>
    obtain ⟨rfl, exceeds⟩ := found
    have more := exceeds.encard_lt
    exact ⟨⟨fun _ => more, fun _ => ⟨_, _, rfl⟩⟩, fun few => absurd more (not_lt.mpr few)⟩
  | ok g =>
    have few := found.encard_le
    cases ordered : g.processingOrder with
    | error stuck =>
      have cycle := found.hasCycle_iff.mpr (Graph.processingOrder_error found.proper ordered)
      refine ⟨⟨?_, fun more => absurd more (not_lt.mpr few)⟩, fun _ => ⟨⟨fun _ => cycle, ?_⟩, ?_⟩⟩
      · rintro ⟨_, _, e⟩
        simp [Except.bind, Except.mapError, ordered] at e
      · exact fun _ => ⟨stuck, by simp [Except.bind, Except.mapError, ordered]⟩
      · exact fun none => absurd cycle none
    | ok order =>
      have acyclic : ¬ HasCycle r t root := fun cycle => by
        obtain ⟨p, walk⟩ := found.hasCycle_iff.mp cycle
        exact Graph.acyclic_of_ok found.proper ordered p walk
      refine ⟨⟨?_, fun more => absurd more (not_lt.mpr few)⟩, fun _ => ⟨⟨?_, ?_⟩, fun _ => ?_⟩⟩
      · rintro ⟨_, _, e⟩
        simp [Except.bind, Except.mapError, ordered] at e
      · rintro ⟨_, e⟩
        simp [Except.bind, Except.mapError, ordered] at e
      · exact fun cycle => absurd cycle acyclic
      · exact ⟨order, by simp [Except.bind, Except.mapError, ordered], found.inOrder ordered⟩

/-- A header that includes two others, which include the same one. -/
def diamond : FileTree :=
  let bytes (s : String) : List UInt8 := s.toList.map fun c => UInt8.ofNat c.toNat
  { entries :=
      [(["top.h"], .file (bytes "#include \"left.h\"\n#include \"right.h\"\n")),
        (["left.h"], .file (bytes "#include \"base.h\"\n")),
        (["right.h"], .file (bytes "#include \"base.h\"\n")),
        (["base.h"], .file [])] }

theorem diamond_sources :
    diamond.source? "/top.h" = some "#include \"left.h\"\n#include \"right.h\"\n" ∧
      diamond.source? "/left.h" = some "#include \"base.h\"\n" ∧
      diamond.source? "/right.h" = some "#include \"base.h\"\n" ∧
      diamond.source? "/base.h" = some "" := by
  refine ⟨?top, ?left, ?right, ?base⟩
  case top =>
    exact (FileTree.source?_leadsTo "top.h" (by decide) rfl).trans (by decide +kernel)
  case left =>
    exact (FileTree.source?_leadsTo "left.h" (by decide) rfl).trans (by decide +kernel)
  case right =>
    exact (FileTree.source?_leadsTo "right.h" (by decide) rfl).trans (by decide +kernel)
  case base =>
    exact (FileTree.source?_leadsTo "base.h" (by decide) rfl).trans (by decide +kernel)

theorem diamond_target {includer name : String}
    (here : (includer, name) ∈ [("/top.h", "left.h"), ("/top.h", "right.h"),
      ("/left.h", "base.h"), ("/right.h", "base.h")]) :
    SearchPath.target? {} diamond .quoted name includer = some ("/" ++ name) := by
  simp only [List.mem_cons, List.not_mem_nil, or_false, Prod.mk.injEq] at here
  rcases here with ⟨rfl, rfl⟩ | ⟨rfl, rfl⟩ | ⟨rfl, rfl⟩ | ⟨rfl, rfl⟩ <;>
    exact SearchPath.target?_leadsTo rfl (by decide) rfl

theorem diamond_top :
    targetsOf {} diamond "/top.h" "#include \"left.h\"\n#include \"right.h\"\n" =
      ["/left.h", "/right.h"] := by
  have scanned : scan "#include \"left.h\"\n#include \"right.h\"\n" =
      [(.quoted, "left.h"), (.quoted, "right.h")] := by decide +kernel
  rw [targetsOf, scanned]
  simp [targetsIn, follows, diamond_target]

theorem diamond_sides :
    targetsOf {} diamond "/left.h" "#include \"base.h\"\n" = ["/base.h"] ∧
      targetsOf {} diamond "/right.h" "#include \"base.h\"\n" = ["/base.h"] ∧
      targetsOf {} diamond "/base.h" "" = [] := by
  have scanned : scan "#include \"base.h\"\n" = [(.quoted, "base.h")] := by decide +kernel
  refine ⟨?_, ?_, rfl⟩ <;> rw [targetsOf, scanned] <;> simp [targetsIn, follows, diamond_target]

theorem diamond_readable :
    ∀ p ∈ needed {} diamond "/top.h", ∃ source, diamond.source? p = some source := by
  obtain ⟨top, left, right, base⟩ := diamond_sources
  obtain ⟨leftTargets, rightTargets, baseTargets⟩ := diamond_sides
  have closed : ∀ a ∈ ["/top.h", "/left.h", "/right.h", "/base.h"], ∃ source,
      diamond.source? a = some source ∧
        targetsOf {} diamond a source ⊆ ["/top.h", "/left.h", "/right.h", "/base.h"] := by
    intro a ha
    simp only [List.mem_cons, List.not_mem_nil, or_false] at ha
    rcases ha with rfl | rfl | rfl | rfl
    · exact ⟨_, top, by rw [diamond_top]; decide⟩
    · exact ⟨_, left, by rw [leftTargets]; decide⟩
    · exact ⟨_, right, by rw [rightTargets]; decide⟩
    · exact ⟨_, base, by rw [baseTargets]; decide⟩
  intro p mem
  obtain ⟨source, text, -⟩ := closed p (needed_subset List.mem_cons_self closed p mem)
  exact ⟨source, text⟩

theorem order_diamond :
    diamond.canonical? "top.h" = some "/top.h" ∧
      (∀ p ∈ needed {} diamond "/top.h", ∃ source, diamond.source? p = some source) ∧
      ∃ outcome, (order {} (FileTree.host fun _ _ => pure (.error .notFound)) "top.h").run.run
          diamond = (outcome, diamond) ∧
        ((∃ found allowed, outcome = .error (.tooManyHeaders found allowed)) ↔
          ((max 20 1 : ℕ) : ℕ∞) < (needed {} diamond "/top.h").encard) ∧
        ((needed {} diamond "/top.h").encard ≤ (max 20 1 : ℕ) →
          ((∃ stuck, outcome = .error (.includeCycle stuck)) ↔ HasCycle {} diamond "/top.h") ∧
          (¬ HasCycle {} diamond "/top.h" →
            ∃ order, outcome = .ok order ∧ InOrder {} diamond "/top.h" order)) := by
  have top : diamond.LeadsTo "top.h" "top.h" := by decide
  have known : diamond.canonical? "top.h" = some "/top.h" := FileTree.canonical?_leadsTo top rfl
  exact ⟨known, diamond_readable, order_spec _ {} diamond known diamond_readable⟩

end ConstLookup.Include.Resolver
