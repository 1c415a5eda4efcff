import ConstLookup.Proofs.Include.Discover
import ConstLookup.Proofs.Include.Order

/-!
  Headers listed by a compiler, on a tree of files. Each listed header is added to the graph where
  it is listed first (`paths_addAll`), and connected with the listed headers that it includes, by
  directives of either kind (`connectAll_run`). The run gives each listed header once: after all
  listed headers that it includes, or, if these includes have a cycle, in the reverse of the
  listing (`orderListed_spec`).
-/

namespace ConstLookup.Include

open Relation

/-! ## The graph of a list -/

namespace Graph

variable {g : Graph}

theorem paths_addAll (done : List String) (h : g.paths = done.eraseDups) (listed : List String) :
    (listed.foldl Graph.add g).paths = (done ++ listed).eraseDups := by
  induction listed generalizing done g with
  | nil => simpa using h
  | cons path listed ih =>
    rw [List.foldl_cons, List.append_cons]
    refine ih _ ?_
    rw [List.eraseDups_append]
    by_cases old : path ∈ done
    · have listed : path ∈ g.paths := by
        rw [h]
        exact List.mem_eraseDups.mpr old
      rw [add_of_mem listed, h]
      simp [List.removeAll, old]
    · have new : path ∉ g.paths := by
        rw [h]
        exact fun mem => old (List.mem_eraseDups.mp mem)
      rw [add_of_not_mem new, ← h]
      simp [List.removeAll, List.eraseDups_cons, old, paths]

theorem Proper.addAll (h : g.Proper) (listed : List String) :
    (listed.foldl Graph.add g).Proper := by
  induction listed generalizing g with
  | nil => exact h
  | cons path listed ih => exact ih (h.add path)

theorem connects_addAll {listed : List String} {a b : String} :
    (listed.foldl Graph.add g).Connects a b ↔ g.Connects a b := by
  induction listed generalizing g with
  | nil => exact Iff.rfl
  | cons path listed ih => rw [List.foldl_cons, ih, connects_add]

/-- A header of a graph is connected with some targets, and nothing else changes. -/
structure Connected (path : String) (targets : List String) (g g' : Graph) : Prop where
  proper : g'.Proper
  paths : g'.paths = g.paths
  connects : ∀ a b, g'.Connects a b ↔ g.Connects a b ∨ a = path ∧ b ∈ targets

theorem connectEach_spec {path : String} (h : g.Proper) (inside : path ∈ g.paths)
    (targets : List String) : Connected path targets g (targets.foldl (·.connect path) g) := by
  induction targets generalizing g with
  | nil => exact ⟨h, rfl, by simp⟩
  | cons target targets ih =>
    have inside' : path ∈ (g.connect path target).paths := by rwa [paths_connect]
    obtain ⟨proper, paths, connects⟩ := ih (h.connect path target) inside'
    refine ⟨proper, paths.trans (paths_connect g path target), fun a b => ?_⟩
    rw [List.foldl_cons, connects, connects_connect, List.mem_cons]
    tauto

end Graph

namespace Resolver

variable {programs : String → List String → StateM FileTree (Except IoFault Completed)}
  {r : Resolver} {t : FileTree} {listed : List String}

/-! ## Connecting listed headers -/

/-- The resolver that also follows includes in angle brackets. -/
def followingAll (r : Resolver) : Resolver := { r with includeSystem := true }

theorem includes_followingAll_iff {a b source : String} (h : t.source? a = some source) :
    r.followingAll.Includes t a b ↔ b ∈ r.targetsIn t a (scan source) := by
  have all : (scan source).filter (fun d => r.followingAll.follows d.1) = scan source :=
    List.filter_eq_self.mpr fun d _ => by cases d.1 <;> rfl
  rw [includes_iff h, targetsOf, all]
  rfl

/-- A listed header includes a listed one, by a directive of either kind. -/
def IncludesListed (r : Resolver) (t : FileTree) (listed : List String) (a b : String) : Prop :=
  a ∈ listed ∧ b ∈ listed ∧ r.followingAll.Includes t a b

variable (programs)

theorem connectAll_run {g : Graph} (h : g.Proper) {rest : List String}
    (inside : ∀ p ∈ rest, p ∈ g.paths)
    (readable : ∀ p ∈ rest, ∃ source, t.source? p = some source) :
    ∃ g', (r.connectAll (FileTree.host programs) g rest).run.run t = (.ok g', t) ∧ g'.Proper ∧
      g'.paths = g.paths ∧ ∀ a b, g'.Connects a b ↔
        g.Connects a b ∨ a ∈ rest ∧ b ∈ g.paths ∧ r.followingAll.Includes t a b := by
  induction rest generalizing g with
  | nil => exact ⟨g, rfl, h, rfl, by simp⟩
  | cons path rest ih =>
    obtain ⟨source, text⟩ := readable path List.mem_cons_self
    have each := Graph.connectEach_spec h (inside path List.mem_cons_self)
      ((r.targetsIn t path (scan source)).filter g.has)
    obtain ⟨g', run, proper, paths, connects⟩ := ih each.proper
      (fun p hp => by rw [each.paths]; exact inside p (List.mem_cons_of_mem path hp))
      fun p hp => readable p (List.mem_cons_of_mem path hp)
    refine ⟨g', ?_, proper, paths.trans each.paths, fun a b => ?_⟩
    · rw [connectAll, run_bind_ok (includesOf_run text),
        run_bind_ok (run_lift_eq (resolveAll_run r t _ _))]
      exact run
    · rw [connects, each.connects, each.paths, List.mem_filter, Graph.has_iff,
        ← includes_followingAll_iff text, List.mem_cons]
      constructor
      · rintro ((old | ⟨rfl, includes, mem⟩) | ⟨hp, mem, includes⟩)
        · exact .inl old
        · exact .inr ⟨.inl rfl, mem, includes⟩
        · exact .inr ⟨.inr hp, mem, includes⟩
      · rintro (old | ⟨rfl | hp, mem, includes⟩)
        · exact .inl (.inl old)
        · exact .inl (.inr ⟨rfl, includes, mem⟩)
        · exact .inr ⟨hp, mem, includes⟩

/-- The graph of listed headers. -/
structure ListedGraph (r : Resolver) (t : FileTree) (listed : List String) (g : Graph) :
    Prop where
  proper : g.Proper
  paths : g.paths = listed.eraseDups
  edge_iff : ∀ a b, g.Edge a b ↔ r.IncludesListed t listed a b

theorem orderListed_run (readable : ∀ p ∈ listed, ∃ source, t.source? p = some source) :
    ∃ g, ListedGraph r t listed g ∧
      (r.orderListed (FileTree.host programs) listed).run.run t =
        (.ok (match g.processingOrder with
          | .ok order => order
          | .error _ => g.paths.reverse), t) := by
  have proper := Graph.proper_nil.addAll listed
  have paths : (listed.foldl Graph.add []).paths = listed.eraseDups :=
    Graph.paths_addAll [] rfl listed
  have mem_iff (p : String) : p ∈ (listed.foldl Graph.add []).paths ↔ p ∈ listed := by
    rw [paths, List.mem_eraseDups]
  obtain ⟨g, run, proper', paths', connects⟩ := connectAll_run (r := r) programs proper
    (fun _ => id) fun p hp => readable p ((mem_iff p).mp hp)
  refine ⟨g, ⟨proper', paths'.trans paths, fun a b => ?_⟩, ?_⟩
  · have none : ¬ (listed.foldl Graph.add []).Connects a b := fun connects => by
      obtain ⟨n, hn, -⟩ := Graph.connects_addAll.mp connects
      cases hn
    rw [Graph.edge_iff proper', connects, paths', mem_iff, mem_iff, IncludesListed]
    tauto
  · refine (run_bind_ok run _).trans ?_
    cases g.processingOrder with
    | ok order => rfl
    | error stuck => rfl

/-- Readable headers of a list come out each once: after all listed headers that they include, if
these includes have no cycle, and else in the reverse of the order in which they are listed
first. -/
theorem orderListed_spec (r : Resolver) (t : FileTree)
    (readable : ∀ p ∈ listed, ∃ source, t.source? p = some source) :
    ∃ order, (r.orderListed (FileTree.host programs) listed).run.run t = (.ok order, t) ∧
      order.Nodup ∧ (∀ p, p ∈ order ↔ p ∈ listed) ∧
      ((∀ p, ¬ TransGen (r.IncludesListed t listed) p p) →
        ∀ a b, r.IncludesListed t listed a b → order.idxOf b < order.idxOf a) ∧
      ((∃ p, TransGen (r.IncludesListed t listed) p p) → order = listed.eraseDups.reverse) := by
  obtain ⟨g, ⟨proper, paths, edge_iff⟩, run⟩ := orderListed_run (r := r) programs readable
  have same : g.Edge = r.IncludesListed t listed :=
    funext fun a => funext fun b => propext (edge_iff a b)
  refine ⟨_, run, ?_⟩
  rw [← same]
  cases ordered : g.processingOrder with
  | ok order =>
    obtain ⟨perm, before⟩ := Graph.processingOrder_ok proper ordered
    refine ⟨perm.nodup_iff.mpr proper.nodup, fun p => ?_, fun _ => before, ?_⟩
    · rw [perm.mem_iff, paths, List.mem_eraseDups]
    · rintro ⟨p, cycle⟩
      exact absurd cycle (Graph.acyclic_of_ok proper ordered p)
  | error stuck =>
    refine ⟨List.nodup_reverse.mpr proper.nodup, fun p => ?_, fun acyclic => ?_, fun _ => ?_⟩
    · rw [List.mem_reverse, paths, List.mem_eraseDups]
    · obtain ⟨p, cycle⟩ := Graph.processingOrder_error proper ordered
      exact absurd cycle (acyclic p)
    · rw [paths]

/-- Two headers that include each other. -/
def guarded : FileTree :=
  let bytes (s : String) : List UInt8 := s.toList.map fun c => UInt8.ofNat c.toNat
  { entries :=
      [(["a.h"], .file (bytes "#ifndef A_H\n#include \"b.h\"\n#endif\n")),
        (["b.h"], .file (bytes "#ifndef B_H\n#include \"a.h\"\n#endif\n"))] }

theorem guarded_sources :
    guarded.source? "/a.h" = some "#ifndef A_H\n#include \"b.h\"\n#endif\n" ∧
      guarded.source? "/b.h" = some "#ifndef B_H\n#include \"a.h\"\n#endif\n" := by
  constructor
  · exact (FileTree.source?_leadsTo "a.h" (by decide) rfl).trans (by decide +kernel)
  · exact (FileTree.source?_leadsTo "b.h" (by decide) rfl).trans (by decide +kernel)

theorem orderListed_guarded :
    (∀ p ∈ ["/a.h", "/b.h", "/a.h"], ∃ source, guarded.source? p = some source) ∧
      ∃ order, (orderListed {} (FileTree.host fun _ _ => pure (.error .notFound))
          ["/a.h", "/b.h", "/a.h"]).run.run guarded = (.ok order, guarded) ∧
        order.Nodup ∧ (∀ p, p ∈ order ↔ p ∈ ["/a.h", "/b.h", "/a.h"]) ∧
        ((∀ p, ¬ TransGen (IncludesListed {} guarded ["/a.h", "/b.h", "/a.h"]) p p) →
          ∀ a b, IncludesListed {} guarded ["/a.h", "/b.h", "/a.h"] a b →
            order.idxOf b < order.idxOf a) ∧
        ((∃ p, TransGen (IncludesListed {} guarded ["/a.h", "/b.h", "/a.h"]) p p) →
          order = ["/a.h", "/b.h", "/a.h"].eraseDups.reverse) := by
  have readable : ∀ p ∈ ["/a.h", "/b.h", "/a.h"], ∃ source, guarded.source? p = some source := by
    simp [guarded_sources]
  exact ⟨readable, orderListed_spec _ {} guarded readable⟩

end Resolver

end ConstLookup.Include
