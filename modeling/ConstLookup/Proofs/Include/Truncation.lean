import ConstLookup.Proofs.Include.Listed

/-!
  What is left of the headers that a compiler lists when there are more of them than allowed. The
  headers are put in order, and the last ones are kept (`orderByCompiler_run`), which is meant to
  keep the header that the compiler was asked about. That header is listed first, so it is taken
  first, and it stands last in the order, unless a listed header includes it
  (`getLast?_order_iff`). If one does, and the includes that are written out have no cycle, then
  the header stands before the other one, and it may be dropped (`orderByCompiler_first`,
  `orderByCompiler_drops_first`). The headers listed are the files of the rule that the compiler
  prints, with links resolved (`dependencyList_run`).
-/

namespace ConstLookup.Include

open Relation

/-! ## The header taken first -/

namespace Graph

variable {g : Graph}

/-- Headers are taken in front of those that were taken before. -/
theorem taken_suffix (steps : Nat) (s : Sorting) : s.taken <:+ (takeReady g steps s).taken := by
  induction steps generalizing s with
  | zero => exact List.suffix_rfl
  | succ steps ih =>
    rw [takeReady]
    split
    · exact List.suffix_rfl
    · next path ready first =>
      have more := ih ((g.targets path).foldl release
        { s with ready := ready, taken := path :: s.taken })
      rw [taken_releaseAll] at more
      exact (List.suffix_cons path s.taken).trans more

/-- The header that is ready first is taken next. -/
theorem taken_next {s : Sorting} {path : String} {ready : List String}
    (first : s.ready = path :: ready) (steps : Nat) :
    path :: s.taken <:+ (takeReady g (steps + 1) s).taken := by
  rw [takeReady, first]
  have more := taken_suffix (g := g) steps ((g.targets path).foldl release
    { s with ready := ready, taken := path :: s.taken })
  rwa [taken_releaseAll] at more

theorem includerCount_eq_zero (h : g.Proper) {path : String} (inside : path ∈ g.paths)
    (none : ∀ a, ¬ g.Edge a path) : g.includerCount path = 0 := by
  rw [← waiting_nil, waiting_eq_zero]
  exact fun n hn mem => absurd ((edge_iff h).mpr ⟨inside, n, hn, rfl, mem⟩) (none n.path)

/-- The header that stands first in the graph is the last one of the order exactly if no header
includes it. -/
theorem getLast?_order_iff (h : g.Proper) {first : String} (head : g.paths.head? = some first)
    {order : List String} (ok : g.processingOrder = .ok order) :
    order.getLast? = some first ↔ ∀ a, ¬ g.Edge a first := by
  obtain ⟨perm, before⟩ := processingOrder_ok h ok
  have nodup := perm.nodup_iff.mpr h.nodup
  constructor
  · intro last a e
    obtain ⟨front, rfl⟩ := List.getLast?_eq_some_iff.mp last
    have apart : first ∉ front := fun mem => (List.disjoint_of_nodup_append nodup) mem (by simp)
    have place : (front ++ [first]).idxOf first = front.length := by
      rw [List.idxOf_append_of_notMem apart]
      simp
    have inside := List.idxOf_lt_length_iff.mpr
      (perm.mem_iff.mpr ((edge_iff h).mp e).2.mem_paths)
    have less := before a first e
    simp only [List.length_append, List.length_singleton] at inside
    omega
  · intro none
    have inside := List.mem_of_mem_head? head
    cases g with
    | nil => cases head
    | cons n rest =>
      obtain rfl := Option.some.inj head
      have ready : ∃ more, (sortingStart (n :: rest)).ready = n.path :: more := by
        simp [sortingStart, includerCount_eq_zero h inside none]
      obtain ⟨more, ready⟩ := ready
      obtain ⟨front, taken⟩ := taken_next (g := n :: rest) ready rest.length
      unfold processingOrder at ok
      dsimp only at ok
      split at ok
      · cases ok
      · rw [← Except.ok.inj ok, List.length_cons, ← taken]
        exact List.getLast?_concat

end Graph

namespace Resolver

variable {programs : String → List String → StateM FileTree (Except IoFault Completed)}
  {r : Resolver} {t t' : FileTree} {listed : List String}

/-- Headers of a list in order: the header listed first is the last one exactly if no listed header
includes it, or the includes have a cycle. -/
theorem orderListed_last_iff (programs : String → List String →
      StateM FileTree (Except IoFault Completed)) (r : Resolver) {top : String} {rest : List String}
    (readable : ∀ p ∈ top :: rest, ∃ source, t.source? p = some source) :
    ∃ whole, (r.orderListed (FileTree.host programs) (top :: rest)).run.run t = (.ok whole, t) ∧
      whole.Nodup ∧ whole.Perm (top :: rest).eraseDups ∧
      (whole.getLast? = some top ↔
        (∃ p, TransGen (r.IncludesListed t (top :: rest)) p p) ∨
          ∀ a, ¬ r.IncludesListed t (top :: rest) a top) := by
  obtain ⟨g, ⟨proper, paths, edge_iff⟩, run⟩ := orderListed_run (r := r) programs readable
  have same : g.Edge = r.IncludesListed t (top :: rest) :=
    funext fun a => funext fun b => propext (edge_iff a b)
  have head : g.paths.head? = some top := by rw [paths, List.eraseDups_cons, List.head?_cons]
  refine ⟨_, run, ?_⟩
  rw [← same, ← paths]
  cases ordered : g.processingOrder with
  | ok order =>
    have acyclic : ¬ ∃ p, TransGen g.Edge p p := fun ⟨p, cycle⟩ =>
      Graph.acyclic_of_ok proper ordered p cycle
    rw [or_iff_right acyclic]
    have perm := (Graph.processingOrder_ok proper ordered).1
    exact ⟨perm.nodup_iff.mpr proper.nodup, perm, Graph.getLast?_order_iff proper head ordered⟩
  | error stuck =>
    refine ⟨List.nodup_reverse.mpr proper.nodup, List.reverse_perm g.paths,
      fun _ => .inl (Graph.processingOrder_error proper ordered), fun _ => ?_⟩
    rw [List.getLast?_reverse, head]

/-! ## Headers that a compiler lists -/

theorem canonicalAll_run (paths : List String) :
    (Compiler.canonicalAll (FileTree.host programs) paths).run t =
      (paths.map fun path => (t.canonical? path).getD path, t) := by
  induction paths with
  | nil => rfl
  | cons path paths ih =>
    rw [Compiler.canonicalAll, run_bind_eq (FileTree.host_canonical?_run programs t path),
      run_bind_eq ih]
    rfl

/-- The files of the rule that a compiler prints are listed, with links resolved. -/
theorem dependencyList_run {compiler root : String} {includeSystem : Bool} {dirs : List String}
    {defines : List Define} {printed : Completed} {files : List String}
    (prints : (programs compiler (Compiler.dependencyArguments root includeSystem dirs
      defines)).run t = (.ok printed, t'))
    (success : printed.code = 0)
    (rule : Compiler.ruleFiles (Text.Utf8.lossy printed.stdout) = .ok files) :
    (Compiler.dependencyList (FileTree.host programs) compiler root includeSystem dirs
        defines).run t =
      (.ok (files.map fun path => (t'.canonical? path).getD path), t') := by
  have run : (Compiler.run (FileTree.host programs) compiler
      (Compiler.dependencyArguments root includeSystem dirs defines)).run t =
        (.ok printed, t') := by
    refine (run_bind_eq prints _).trans ?_
    dsimp only
    rw [if_pos success]
    rfl
  rw [Compiler.dependencyList, run_bind_eq run]
  dsimp only
  rw [rule]
  dsimp only
  rw [run_bind_eq (canonicalAll_run files)]
  rfl

/-! ## Keeping the last headers -/

/-- Of the headers in order, the last ones are kept. -/
theorem orderByCompiler_run {compiler root : String} {defines : List Define}
    (file : t.isFile root = true)
    (lists : (Compiler.dependencyList (FileTree.host programs) compiler root r.includeSystem
      r.search.userDirs defines).run t = (.ok listed, t'))
    {whole : List String}
    (ordered : (r.orderListed (FileTree.host programs) listed).run.run t' = (.ok whole, t')) :
    (r.orderByCompiler (FileTree.host programs) compiler root defines).run.run t =
      (.ok (whole.drop (whole.length - r.maxHeaders)), t') := by
  have isFile : (ExceptT.lift ((FileTree.host programs).isFile root) :
      ExceptT RunError (StateM FileTree) Bool).run.run t = (.ok true, t) :=
    run_lift_eq ((FileTree.host_isFile_run programs t root).trans (by rw [file]))
  rw [orderByCompiler]
  refine (run_bind_ok isFile _).trans ?_
  rw [if_pos rfl, run_bind_ok (run_lift_eq lists)]
  dsimp only
  rw [run_bind_ok ordered]
  rfl

/-- What stays when a front is dropped is what stands behind it. -/
theorem mem_drop_iff {l : List String} (nodup : l.Nodup) {a : String} (mem : a ∈ l) (n : Nat) :
    a ∈ l.drop n ↔ n ≤ l.idxOf a := by
  constructor
  · intro later
    obtain ⟨i, inside, rfl⟩ := List.mem_iff_getElem.mp later
    rw [List.getElem_drop, nodup.idxOf_getElem]
    exact Nat.le_add_right n i
  · intro le
    have inside := List.idxOf_lt_length_iff.mpr mem
    refine List.mem_iff_getElem.mpr ⟨l.idxOf a - n, by rw [List.length_drop]; omega, ?_⟩
    rw [List.getElem_drop]
    simp [Nat.add_sub_cancel' le]

/-- Of the headers that a compiler lists, as many are kept as are allowed. The header listed first,
which is the one that the compiler was asked about, is kept if its place in the order is not
dropped. It is kept as the last one exactly if no listed header includes it, or the includes have a
cycle. -/
theorem orderByCompiler_first (r : Resolver) {compiler root : String} {defines : List Define}
    {top : String} {rest : List String} (file : t.isFile root = true)
    (lists : (Compiler.dependencyList (FileTree.host programs) compiler root r.includeSystem
      r.search.userDirs defines).run t = (.ok (top :: rest), t'))
    (readable : ∀ p ∈ top :: rest, ∃ source, t'.source? p = some source)
    (allowed : 1 ≤ r.maxHeaders) :
    ∃ whole kept,
      (r.orderListed (FileTree.host programs) (top :: rest)).run.run t' = (.ok whole, t') ∧
      (r.orderByCompiler (FileTree.host programs) compiler root defines).run.run t =
        (.ok kept, t') ∧
      kept.length = min r.maxHeaders (top :: rest).eraseDups.length ∧
      (top ∈ kept ↔ whole.length ≤ whole.idxOf top + r.maxHeaders) ∧
      (kept.getLast? = some top ↔
        (∃ p, TransGen (r.IncludesListed t' (top :: rest)) p p) ∨
          ∀ a, ¬ r.IncludesListed t' (top :: rest) a top) := by
  obtain ⟨whole, run, nodup, perm, last⟩ := orderListed_last_iff programs r readable
  have inside : top ∈ whole := perm.mem_iff.mpr (List.mem_eraseDups.mpr List.mem_cons_self)
  have nonempty := List.length_pos_of_mem inside
  refine ⟨whole, _, run, orderByCompiler_run file lists run, ?_, ?_, ?_⟩
  · rw [List.length_drop, perm.length_eq]
    omega
  · rw [mem_drop_iff nodup inside]
    omega
  · rw [List.getLast?_drop, if_neg (by omega), last]

/-- A header that another one includes, which it includes itself by a macro's name. -/
def computed : FileTree :=
  let bytes (s : String) : List UInt8 := s.toList.map fun c => UInt8.ofNat c.toNat
  { entries :=
      [(["top.h"], .file (bytes "#define PART \"part.h\"\n#include PART\n")),
        (["part.h"], .file (bytes "#include \"top.h\"\n"))] }

/-- Every program prints the same text. -/
def printing (text : String) : String → List String → StateM FileTree (Except IoFault Completed) :=
  fun _ _ => pure (.ok
    { code := 0, stdout := text.toList.map fun c => UInt8.ofNat c.toNat, stderr := [] })

theorem computed_listed :
    computed.isFile "top.h" = true ∧
      (Compiler.dependencyList (FileTree.host (printing "top.o: top.h part.h\n")) "cc" "top.h" false
        [] []).run computed = (.ok ["/top.h", "/part.h"], computed) ∧
      computed.source? "/top.h" = some "#define PART \"part.h\"\n#include PART\n" ∧
      computed.source? "/part.h" = some "#include \"top.h\"\n" := by
  have topLeads : computed.LeadsTo "top.h" "top.h" := by decide
  have partLeads : computed.LeadsTo "part.h" "part.h" := by decide
  have top : computed.source? "/top.h" = some "#define PART \"part.h\"\n#include PART\n" :=
    (FileTree.source?_leadsTo "top.h" (by decide) rfl).trans (by decide +kernel)
  have part : computed.source? "/part.h" = some "#include \"top.h\"\n" :=
    (FileTree.source?_leadsTo "part.h" (by decide) rfl).trans (by decide +kernel)
  have rule : Compiler.ruleFiles (Text.Utf8.lossy
      ("top.o: top.h part.h\n".toList.map fun c => UInt8.ofNat c.toNat)) =
        .ok ["top.h", "part.h"] := by
    decide +kernel
  have isFile := FileTree.isFile_of_source? (FileTree.source?_leadsTo "top.h" topLeads rfl)
  refine ⟨isFile, ?_, top, part⟩
  rw [dependencyList_run rfl rfl rule, List.map_cons, List.map_cons, List.map_nil,
    FileTree.canonical?_leadsTo topLeads rfl, FileTree.canonical?_leadsTo partLeads rfl]
  rfl

/-- Only one of the two includes is written out. -/
theorem computed_targets :
    targetsIn { maxHeaders := 1 } computed "/top.h"
        (scan "#define PART \"part.h\"\n#include PART\n") = [] ∧
      targetsIn { maxHeaders := 1 } computed "/part.h" (scan "#include \"top.h\"\n") =
        ["/top.h"] := by
  have none : scan "#define PART \"part.h\"\n#include PART\n" = [] := by decide +kernel
  have one : scan "#include \"top.h\"\n" = [(.quoted, "top.h")] := by decide +kernel
  have leads : computed.LeadsTo "/top.h" "top.h" := by decide
  have target : SearchPath.target? {} computed .quoted "top.h" "/part.h" = some "/top.h" :=
    SearchPath.target?_leadsTo rfl leads rfl
  rw [none, one]
  exact ⟨rfl, List.filterMap_cons_some target⟩

/-- Of two headers listed, one is kept, and it is not the one that was asked about. -/
theorem orderByCompiler_drops_first :
    (Compiler.dependencyList (FileTree.host (printing "top.o: top.h part.h\n")) "cc" "top.h" false
        [] []).run computed = (.ok ["/top.h", "/part.h"], computed) ∧
      (orderByCompiler { maxHeaders := 1 } (FileTree.host (printing "top.o: top.h part.h\n")) "cc"
        "top.h" []).run.run computed = (.ok ["/part.h"], computed) := by
  obtain ⟨file, lists, top, part⟩ := computed_listed
  obtain ⟨none, target⟩ := computed_targets
  have connected : (connectAll { maxHeaders := 1 }
      (FileTree.host (printing "top.o: top.h part.h\n")) [⟨"/top.h", []⟩, ⟨"/part.h", []⟩]
      ["/top.h", "/part.h"]).run.run computed =
        (.ok [⟨"/top.h", []⟩, ⟨"/part.h", ["/top.h"]⟩], computed) := by
    rw [connectAll, run_bind_ok (includesOf_run top),
      run_bind_ok (run_lift_eq (resolveAll_run _ _ _ _)), none, connectAll]
    rw [run_bind_ok (includesOf_run part), run_bind_ok (run_lift_eq (resolveAll_run _ _ _ _)),
      target]
    rfl
  have ordered : (orderListed { maxHeaders := 1 }
      (FileTree.host (printing "top.o: top.h part.h\n")) ["/top.h", "/part.h"]).run.run computed =
        (.ok ["/top.h", "/part.h"], computed) := by
    refine (run_bind_ok connected _).trans ?_
    rfl
  exact ⟨lists, orderByCompiler_run file lists ordered⟩

theorem orderByCompiler_first_computed :
    (computed.isFile "top.h" = true ∧
      (Compiler.dependencyList (FileTree.host (printing "top.o: top.h part.h\n")) "cc" "top.h" false
        [] []).run computed = (.ok ["/top.h", "/part.h"], computed) ∧
      (∀ p ∈ ["/top.h", "/part.h"], ∃ source, computed.source? p = some source) ∧ 1 ≤ 1) ∧
    ∃ whole kept,
      (orderListed { maxHeaders := 1 } (FileTree.host (printing "top.o: top.h part.h\n"))
        ["/top.h", "/part.h"]).run.run computed = (.ok whole, computed) ∧
      (orderByCompiler { maxHeaders := 1 } (FileTree.host (printing "top.o: top.h part.h\n")) "cc"
        "top.h" []).run.run computed = (.ok kept, computed) ∧
      kept.length = min 1 ["/top.h", "/part.h"].eraseDups.length ∧
      ("/top.h" ∈ kept ↔ whole.length ≤ whole.idxOf "/top.h" + 1) ∧
      (kept.getLast? = some "/top.h" ↔
        (∃ p, TransGen (IncludesListed { maxHeaders := 1 } computed ["/top.h", "/part.h"]) p p) ∨
          ∀ a, ¬ IncludesListed { maxHeaders := 1 } computed ["/top.h", "/part.h"] a "/top.h") := by
  obtain ⟨file, lists, top, part⟩ := computed_listed
  have readable : ∀ p ∈ ["/top.h", "/part.h"], ∃ source, computed.source? p = some source := by
    simp [top, part]
  exact ⟨⟨file, lists, readable, Nat.le_refl 1⟩,
    orderByCompiler_first { maxHeaders := 1 } file lists readable (Nat.le_refl 1)⟩

end Resolver

end ConstLookup.Include
