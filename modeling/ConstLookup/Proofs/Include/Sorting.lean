import ConstLookup.Proofs.Include.Order

/-!
  The processing order over all graphs that can be built. While headers are taken, the count of a
  header that is released is never zero: it counts, among others, the header that was taken just
  now (`Releasing.releaseChecked?_eq`). So a run that checks every count before it lowers it is the
  run itself (`takeReadyChecked?_eq`). It takes all headers if and only if their includes have no
  cycle (`processingOrder_spec`); includes of headers outside the graph do not matter.
-/

namespace ConstLookup.Include.Graph

open Relation

variable {g : Graph}

/-! ## Counts stay above zero -/

/-- Release a header, but not with a count of zero. -/
def releaseChecked? (s : Sorting) (path : String) : Option Sorting :=
  if s.waits.all fun w => w.1 ≠ path || 0 < w.2 then some (release s path) else none

/-- Take headers as `takeReady` does, but stop where a count would fall below zero. -/
def takeReadyChecked? (g : Graph) : Nat → Sorting → Option Sorting
  | 0, s => some s
  | steps + 1, s =>
    match s.ready with
    | [] => some s
    | path :: ready => do
      let s := { s with ready := ready, taken := path :: s.taken }
      takeReadyChecked? g steps (← (g.targets path).foldlM releaseChecked? s)

theorem Releasing.releaseChecked?_eq {rest : List String} {s : Sorting} {path : String}
    (h : Releasing g (path :: rest) s) : releaseChecked? s path = some (Graph.release s path) := by
  refine if_pos (List.all_eq_true.mpr fun w hw => ?_)
  rw [h.waits] at hw
  obtain ⟨n, -, rfl⟩ := List.mem_map.mp hw
  by_cases same : n.path = path <;> simp [same]

theorem Releasing.releaseAllChecked?_eq {rest : List String} {s : Sorting}
    (h : Releasing g rest s) (nodup : rest.Nodup) (inside : ∀ p ∈ rest, p ∈ g.paths) :
    rest.foldlM releaseChecked? s = some (rest.foldl Graph.release s) := by
  induction rest generalizing s with
  | nil => rfl
  | cons path rest ih =>
    obtain ⟨apart, nodup⟩ := List.nodup_cons.mp nodup
    rw [List.foldlM_cons, h.releaseChecked?_eq]
    exact ih (h.release (inside path List.mem_cons_self) apart) nodup fun p hp =>
      inside p (List.mem_cons_of_mem path hp)

theorem takeReadyChecked?_eq (h : g.Proper) (steps : Nat) {s : Sorting} (inv : Releasing g [] s) :
    takeReadyChecked? g steps s = some (takeReady g steps s) := by
  induction steps generalizing s with
  | zero => rfl
  | succ steps ih =>
    rw [takeReadyChecked?, takeReady]
    cases first : s.ready with
    | nil => rfl
    | cons path ready =>
      have released := (inv.taking h first).releaseAllChecked?_eq (targets_nodup h path) fun _ =>
        mem_paths_of_target
      dsimp only
      rw [released]
      exact ih (inv.take h first)

/-! ## Orders and cycles -/

/-- Over every graph that can be built: no count is lowered below zero; there is an order exactly
if no header includes itself, directly or through others; an order lists every header once, each
after all headers of the graph that it includes; and without one the run fails. -/
theorem processingOrder_spec (built : Built g) :
    takeReadyChecked? g g.length g.sortingStart = some (takeReady g g.length g.sortingStart) ∧
      ((∃ order, g.processingOrder = .ok order) ↔ ∀ p, ¬ TransGen g.Edge p p) ∧
      (∀ order, g.processingOrder = .ok order →
        order.Perm g.paths ∧ ∀ a b, g.Edge a b → order.idxOf b < order.idxOf a) ∧
      ((∃ stuck, g.processingOrder = .error stuck) ↔ ∃ p, TransGen g.Edge p p) := by
  have h := built.proper
  refine ⟨takeReadyChecked?_eq h _ (releasing_sortingStart h), ?_, fun _ => processingOrder_ok h, ?_⟩
  · refine ⟨fun ⟨order, ok⟩ => acyclic_of_ok h ok, fun acyclic => ?_⟩
    cases ordered : g.processingOrder with
    | ok order => exact ⟨order, rfl⟩
    | error stuck =>
      obtain ⟨p, cycle⟩ := processingOrder_error h ordered
      exact absurd cycle (acyclic p)
  · refine ⟨fun ⟨stuck, error⟩ => processingOrder_error h error, fun ⟨p, cycle⟩ => ?_⟩
    cases ordered : g.processingOrder with
    | ok order => exact absurd cycle (acyclic_of_ok h ordered p)
    | error stuck => exact ⟨stuck, rfl⟩

/-- Two headers include the same one, one of them also a header outside the graph, and one header
stands alone. -/
def shared : Graph :=
  let headers := ["/top.h", "/left.h", "/right.h", "/base.h", "/lone.h"].foldl Graph.add []
  [("/top.h", "/right.h"), ("/top.h", "/left.h"), ("/left.h", "/base.h"), ("/right.h", "/base.h"),
    ("/right.h", "/gone.h")].foldl (fun g (a, b) => g.connect a b) headers

example : shared.processingOrder = .ok ["/base.h", "/right.h", "/left.h", "/lone.h", "/top.h"] := by
  decide +kernel

theorem processingOrder_shared :
    Built shared ∧
      takeReadyChecked? shared shared.length shared.sortingStart =
        some (takeReady shared shared.length shared.sortingStart) ∧
      ((∃ order, shared.processingOrder = .ok order) ↔ ∀ p, ¬ TransGen shared.Edge p p) ∧
      (∀ order, shared.processingOrder = .ok order →
        order.Perm shared.paths ∧ ∀ a b, shared.Edge a b → order.idxOf b < order.idxOf a) ∧
      ((∃ stuck, shared.processingOrder = .error stuck) ↔ ∃ p, TransGen shared.Edge p p) := by
  have headers := ((((Built.empty.add "/top.h").add "/left.h").add "/right.h").add "/base.h").add
    "/lone.h"
  have built : Built shared :=
    ((((headers.connect "/top.h" "/right.h").connect "/top.h" "/left.h").connect
      "/left.h" "/base.h").connect "/right.h" "/base.h").connect "/right.h" "/gone.h"
  exact ⟨built, processingOrder_spec built⟩

end ConstLookup.Include.Graph
