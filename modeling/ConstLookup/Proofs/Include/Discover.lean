import ConstLookup.File.Tree
import ConstLookup.Include.Discover
import ConstLookup.Proofs.File.Tree
import ConstLookup.Proofs.Include.Graph
import Mathlib.Data.Set.Card

/-!
  Discovery on a tree of files. Looking for headers reads the tree and leaves it as it is. Headers
  are visited in the order in which they were found; a visited header is connected with exactly
  the headers that it includes (`Discovered`). So the graph found in the end has all headers that
  are needed and no others, unless there are more of them than allowed (`discover_spec`).
-/

namespace ConstLookup

/-! ## Runs on a tree -/

section Runs

variable {σ ε α β : Type} {s s' : σ} {a : α}

theorem run_bind_eq {x : StateM σ α} (h : x.run s = (a, s')) (f : α → StateM σ β) :
    (x >>= f).run s = (f a).run s' := by
  rw [StateT.run_bind, h]
  rfl

theorem run_bind_ok {x : ExceptT ε (StateM σ) α} (h : x.run.run s = (.ok a, s'))
    (f : α → ExceptT ε (StateM σ) β) : (x >>= f).run.run s = (f a).run.run s' := by
  rw [ExceptT.run_bind, run_bind_eq h]

theorem run_bind_error {e : ε} {x : ExceptT ε (StateM σ) α} (h : x.run.run s = (.error e, s'))
    (f : α → ExceptT ε (StateM σ) β) : (x >>= f).run.run s = (.error e, s') := by
  rw [ExceptT.run_bind, run_bind_eq h]
  rfl

theorem run_lift_eq {x : StateM σ α} (h : x.run s = (a, s')) :
    (ExceptT.lift x : ExceptT ε (StateM σ) α).run.run s = (.ok a, s') := by
  rw [ExceptT.run_lift, StateT.run_map, h]
  rfl

theorem run_mk_eq (outcome : Except ε α) (s : σ) :
    (ExceptT.mk (pure outcome) : ExceptT ε (StateM σ) α).run.run s = (outcome, s) := rfl

end Runs

namespace FileTree

/-- The text of a source file. -/
def source? (t : FileTree) (path : String) : Option String :=
  (t.read path).toOption.map Text.Utf8.lossy

theorem source?_leadsTo {t : FileTree} {path : String} {bytes : List UInt8} (name : String)
    (h : t.LeadsTo path name) (entry : t.entry? [name] = some (.file bytes)) :
    t.source? path = some (Text.Utf8.lossy bytes) := by
  rw [source?, read_leadsTo h entry]
  rfl

theorem isFile_of_source? {t : FileTree} {path source : String} (h : t.source? path = some source) :
    t.isFile path = true := by
  obtain ⟨bytes, read, -⟩ := Option.map_eq_some_iff.mp h
  cases found : t.read path with
  | error fault =>
    rw [found] at read
    cases read
  | ok bytes => rw [isFile, lookup?_of_read found]

variable (programs : String → List String → StateM FileTree (Except IoFault Completed))

theorem host_isFile_run (t : FileTree) (path : String) :
    ((host programs).isFile path).run t = (t.isFile path, t) := rfl

theorem host_canonical?_run (t : FileTree) (path : String) :
    ((host programs).canonical? path).run t = (t.canonical? path, t) := rfl

theorem host_readSource_run {t : FileTree} {path source : String}
    (h : t.source? path = some source) :
    ((host programs).readSource path).run t = (.ok source, t) := by
  obtain ⟨bytes, read, rfl⟩ := Option.map_eq_some_iff.mp h
  have ok : t.read path = .ok bytes := by
    cases e : t.read path with
    | error fault => rw [e] at read; cases read
    | ok found => rw [e] at read; exact congrArg Except.ok (Option.some.inj read)
  have run : ((host programs).read path).run t = (.ok bytes, t) := congrArg (·, t) ok
  rw [Host.readSource, run_bind_eq run]
  rfl

end FileTree

namespace Include

open Relation

variable {programs : String → List String → StateM FileTree (Except IoFault Completed)}

/-! ## Searching in a tree -/

/-- The file of a tree that a name in a header stands for. -/
def SearchPath.target? (s : SearchPath) (t : FileTree) (kind : Kind) (name includer : String) :
    Option String :=
  ((s.candidates kind name (some includer)).find? t.isFile).bind t.canonical?

/-- A name stands for the first candidate, if this is a file of the root. -/
theorem SearchPath.target?_leadsTo {s : SearchPath} {t : FileTree} {kind : Kind}
    {name includer path file : String} {more : List String} {bytes : List UInt8}
    (first : s.candidates kind name (some includer) = path :: more) (h : t.LeadsTo path file)
    (entry : t.entry? [file] = some (.file bytes)) :
    s.target? t kind name includer = some ("/" ++ file) := by
  have isFile := FileTree.isFile_of_source? (FileTree.source?_leadsTo file h entry)
  rw [target?, first, List.find?_cons_of_pos isFile]
  exact FileTree.canonical?_leadsTo h entry

theorem SearchPath.firstFile?_run (t : FileTree) (paths : List String) :
    (SearchPath.firstFile? (FileTree.host programs) paths).run t = (paths.find? t.isFile, t) := by
  induction paths with
  | nil => rfl
  | cons path paths ih =>
    rw [SearchPath.firstFile?, run_bind_eq (FileTree.host_isFile_run programs t path)]
    cases h : t.isFile path with
    | true =>
      rw [List.find?_cons_of_pos h]
      rfl
    | false =>
      rw [List.find?_cons_of_neg (by simp [h])]
      exact ih

theorem SearchPath.resolve?_run (s : SearchPath) (t : FileTree) (kind : Kind)
    (name includer : String) :
    (s.resolve? (FileTree.host programs) kind name (some includer)).run t =
      (s.target? t kind name includer, t) := by
  rw [SearchPath.resolve?, run_bind_eq (SearchPath.firstFile?_run t _), SearchPath.target?]
  cases (s.candidates kind name (some includer)).find? t.isFile with
  | none => rfl
  | some path => rfl

namespace Resolver

/-- The files that includes of a header stand for. -/
def targetsIn (r : Resolver) (t : FileTree) (includer : String) (ds : List (Kind × String)) :
    List String :=
  ds.filterMap fun d => r.search.target? t d.1 d.2 includer

theorem resolveAll_run (r : Resolver) (t : FileTree) (includer : String)
    (ds : List (Kind × String)) :
    (r.resolveAll (FileTree.host programs) includer ds).run t = (r.targetsIn t includer ds, t) := by
  induction ds with
  | nil => rfl
  | cons d ds ih =>
    rw [resolveAll, run_bind_eq (SearchPath.resolve?_run _ _ _ _ _), run_bind_eq ih, targetsIn,
      targetsIn, List.filterMap_cons]
    cases r.search.target? t d.1 d.2 includer <;> rfl

/-- The files that the followed includes of a text stand for. -/
def targetsOf (r : Resolver) (t : FileTree) (includer source : String) : List String :=
  r.targetsIn t includer ((scan source).filter fun d => r.follows d.1)

theorem includesOf_run {t : FileTree} {path source : String} (h : t.source? path = some source) :
    (includesOf (FileTree.host programs) path).run.run t = (.ok (scan source), t) := by
  rw [includesOf, run_bind_ok (run_lift_eq (FileTree.host_readSource_run programs h))]
  rfl

/-! ## The headers that are needed -/

/-- A header of a tree includes another one, by a directive that is followed. -/
def Includes (r : Resolver) (t : FileTree) (a b : String) : Prop :=
  ∃ source, t.source? a = some source ∧
    ∃ d ∈ scan source, r.follows d.1 = true ∧ r.search.target? t d.1 d.2 a = some b

/-- The headers reached from a header by following includes, itself among them. -/
def needed (r : Resolver) (t : FileTree) (root : String) : Set String :=
  {p | ReflTransGen (r.Includes t) root p}

/-- The most headers that a run may find: the root is always allowed. -/
def budget (r : Resolver) : Nat := max 1 r.maxHeaders

variable {r : Resolver} {t : FileTree} {root : String}

theorem includes_iff {a b source : String} (h : t.source? a = some source) :
    r.Includes t a b ↔ b ∈ r.targetsOf t a source := by
  rw [targetsOf, targetsIn, List.mem_filterMap]
  constructor
  · rintro ⟨text, hs, d, hd, follows, found⟩
    obtain rfl := Option.some.inj (h.symm.trans hs)
    exact ⟨d, List.mem_filter.mpr ⟨hd, follows⟩, found⟩
  · rintro ⟨d, hd, found⟩
    obtain ⟨mem, follows⟩ := List.mem_filter.mp hd
    exact ⟨source, h, d, mem, follows, found⟩

/-- There are headers that are needed, and more of them than allowed. -/
def Exceeds (r : Resolver) (t : FileTree) (root : String) : Prop :=
  ∃ l : List String, l.Nodup ∧ (∀ p ∈ l, p ∈ r.needed t root) ∧ l.length = r.budget + 1

/-! ## Adding the includes of a header -/

/-- What adding the targets of a header makes of a graph. -/
structure Extended (includer : String) (added : List String) (g g' : Graph) : Prop where
  proper : g'.Proper
  starts : g.paths <+: g'.paths
  mem : ∀ p ∈ g'.paths, p ∈ g.paths ∨ p ∈ added
  targets : ∀ p ∈ added, p ∈ g'.paths
  connects : ∀ a b, g'.Connects a b ↔ g.Connects a b ∨ a = includer ∧ b ∈ added

theorem paths_add_prefix (g : Graph) (path : String) : g.paths <+: (g.add path).paths := by
  by_cases h : path ∈ g.paths
  · rw [Graph.add_of_mem h]
  · rw [Graph.add_of_not_mem h]
    exact ⟨[path], by simp [Graph.paths]⟩

theorem extended_step {includer : String} (target : String) {g : Graph} (h : g.Proper)
    (inside : includer ∈ g.paths) :
    Extended includer [target] g ((g.add target).connect includer target) := by
  have starts := paths_add_prefix g target
  constructor
  case proper => exact (h.add target).connect includer target
  case starts => rwa [Graph.paths_connect]
  case mem =>
    intro p hp
    rw [Graph.paths_connect] at hp
    exact (Graph.mem_paths_add.mp hp).imp_right List.mem_singleton.mpr
  case targets =>
    intro p hp
    rw [Graph.paths_connect, List.mem_singleton.mp hp]
    exact Graph.mem_paths_add.mpr (.inr rfl)
  case connects =>
    intro a b
    rw [Graph.connects_connect, Graph.connects_add, List.mem_singleton]
    have inside' := starts.subset inside
    tauto

theorem Extended.trans {includer : String} {l l' : List String} {g g' g'' : Graph}
    (h : Extended includer l g g') (h' : Extended includer l' g' g'') :
    Extended includer (l ++ l') g g'' := by
  constructor
  case proper => exact h'.proper
  case starts => exact h.starts.trans h'.starts
  case mem =>
    intro p hp
    rw [List.mem_append]
    rcases h'.mem p hp with hp | hp
    · exact (h.mem p hp).imp_right .inl
    · exact .inr (.inr hp)
  case targets =>
    intro p hp
    rcases List.mem_append.mp hp with hp | hp
    · exact h'.starts.subset (h.targets p hp)
    · exact h'.targets p hp
  case connects =>
    intro a b
    rw [h'.connects, h.connects, List.mem_append]
    tauto

/-- Adding a target does not pass the limit, unless it is new and there are then more headers than
the limit. -/
theorem length_add_le_budget {target : String} {g : Graph} (allowed : g.length ≤ r.budget)
    (few : ¬ (!g.has target && decide (r.maxHeaders < (g.add target).length)) = true) :
    (g.add target).length ≤ r.budget := by
  by_cases old : target ∈ g.paths
  · rwa [Graph.add_of_mem old]
  · have fresh : g.has target = false := Bool.eq_false_iff.mpr (mt Graph.has_iff.mp old)
    rw [fresh] at few
    unfold budget
    simp at few
    omega

/-- Where adding a target passes the limit, it passes it by one. -/
theorem length_add_eq_budget {target : String} {g : Graph} (some : 0 < g.length)
    (allowed : g.length ≤ r.budget)
    (many : (!g.has target && decide (r.maxHeaders < (g.add target).length)) = true) :
    (g.add target).length = r.budget + 1 := by
  obtain ⟨fresh, more⟩ := Bool.and_eq_true_iff.mp many
  have new : target ∉ g.paths := fun mem => by simp [Graph.has_iff.mpr mem] at fresh
  have one : (g.add target).length = g.length + 1 := by
    rw [Graph.add_of_not_mem new, List.length_append, List.length_singleton]
  have more := of_decide_eq_true more
  unfold budget at *
  omega

/-- Adding targets goes on until all are there, or there is one header more than allowed. -/
theorem extend_spec {includer : String} (targets : List String) {g : Graph} (h : g.Proper)
    (inside : includer ∈ g.paths) (allowed : g.length ≤ r.budget) :
    match r.extend includer g targets with
    | .ok g' => Extended includer targets g g' ∧ g'.length ≤ r.budget
    | .error e => e = .tooManyHeaders (r.budget + 1) r.maxHeaders ∧
        ∃ l : List String, l.Nodup ∧ (∀ p ∈ l, p ∈ g.paths ∨ p ∈ targets) ∧
          l.length = r.budget + 1 := by
  induction targets generalizing g with
  | nil =>
    refine ⟨⟨h, List.prefix_refl _, fun _ => .inl, nofun, fun a b => ?_⟩, allowed⟩
    simp
  | cons target targets ih =>
    have step := extended_step target h inside
    by_cases many : (!g.has target && decide (r.maxHeaders < (g.add target).length)) = true
    · have some : 0 < g.length := by
        have some := List.length_pos_of_mem inside
        rwa [Graph.paths, List.length_map] at some
      have full := length_add_eq_budget some allowed many
      rw [extend, if_pos many]
      refine ⟨by rw [full], (g.add target).paths, (h.add target).nodup, fun p hp => ?_, ?_⟩
      · exact (Graph.mem_paths_add.mp hp).imp_right fun e : p = target => e ▸ List.mem_cons_self
      · rw [Graph.paths, List.length_map, full]
    · have allowed' : ((g.add target).connect includer target).length ≤ r.budget := by
        rw [Graph.connect, List.length_map]
        exact length_add_le_budget allowed many
      have rest := ih step.proper (step.starts.subset inside) allowed'
      rw [extend, if_neg many]
      cases more : r.extend includer ((g.add target).connect includer target) targets with
      | ok g' =>
        rw [more] at rest
        exact ⟨step.trans rest.1, rest.2⟩
      | error e =>
        rw [more] at rest
        obtain ⟨rfl, l, nodup, mem, count⟩ := rest
        refine ⟨rfl, l, nodup, fun p hp => ?_, count⟩
        rcases mem p hp with hp | hp
        · refine (step.mem p hp).imp_right fun mem => ?_
          rw [List.mem_singleton.mp mem]
          exact List.mem_cons_self
        · exact .inr (List.mem_cons_of_mem target hp)

/-! ## Discovery -/

/-- What is known when the first `i` headers found have been visited. -/
structure Discovered (r : Resolver) (t : FileTree) (root : String) (i : Nat) (g : Graph) :
    Prop where
  proper : g.Proper
  root_mem : root ∈ g.paths
  needed : ∀ p ∈ g.paths, p ∈ r.needed t root
  visited : ∀ p ∈ g.paths.take i, ∀ b, (g.Connects p b ↔ r.Includes t p b) ∧
    (r.Includes t p b → b ∈ g.paths)
  unvisited : ∀ p ∈ g.paths.drop i, ∀ b, ¬ g.Connects p b
  allowed : g.length ≤ r.budget

theorem discovered_root (r : Resolver) (t : FileTree) (root : String) :
    Discovered r t root 0 [{ path := root }] := by
  constructor
  case proper => exact Graph.proper_nil.add root
  case root_mem => exact List.mem_cons_self
  case needed =>
    intro p hp
    rw [List.mem_singleton.mp hp]
    exact ReflTransGen.refl
  case visited => nofun
  case unvisited =>
    rintro p - b ⟨n, hn, -, mem⟩
    rw [List.mem_singleton.mp hn] at mem
    exact List.not_mem_nil mem
  case allowed => exact Nat.le_max_left 1 _

/-- A visit of the next header keeps what is known. -/
theorem Discovered.visit {i : Nat} {g g' : Graph} {node : Node} {source : String}
    (h : Discovered r t root i g) (next : g[i]? = some node)
    (readable : t.source? node.path = some source)
    (ext : Extended node.path (r.targetsOf t node.path source) g g')
    (allowed : g'.length ≤ r.budget) : Discovered r t root (i + 1) g' := by
  have here : g.paths[i]? = some node.path := by rw [Graph.paths, List.getElem?_map, next]; rfl
  obtain ⟨less, at_⟩ := List.getElem?_eq_some_iff.mp here
  have inside : node.path ∈ g.paths := at_ ▸ List.getElem_mem less
  have waits : node.path ∈ g.paths.drop i := by
    rw [List.drop_eq_getElem_cons less, at_]
    exact List.mem_cons_self
  have front : g'.paths.take (i + 1) = g.paths.take i ++ [node.path] := by
    obtain ⟨more, whole⟩ := ext.starts
    rw [← whole, List.take_append_of_le_length less, List.take_add_one, here]
    rfl
  have includes {b : String} := includes_iff (r := r) (b := b) readable
  constructor
  case proper => exact ext.proper
  case root_mem => exact ext.starts.subset h.root_mem
  case needed =>
    intro p hp
    rcases ext.mem p hp with hp | hp
    · exact h.needed p hp
    · exact ReflTransGen.tail (h.needed _ inside) (includes.mpr hp)
  case visited =>
    intro p hp b
    rw [front, List.mem_append, List.mem_singleton] at hp
    rw [ext.connects]
    by_cases same : p = node.path
    · subst same
      have new := h.unvisited _ waits b
      rw [includes]
      exact ⟨by tauto, ext.targets b⟩
    · obtain ⟨connects, closed⟩ := h.visited p (hp.resolve_right same) b
      exact ⟨by rw [connects]; tauto, fun e => ext.starts.subset (closed e)⟩
  case unvisited =>
    intro p hp b connects
    have apart : p ∉ g'.paths.take (i + 1) := fun mem =>
      List.disjoint_take_drop ext.proper.nodup (Nat.le_refl _) mem hp
    rw [front, List.mem_append, List.mem_singleton, not_or] at apart
    have old := ((ext.connects p b).mp connects).resolve_right fun e => apart.2 e.1
    have mem := old.mem_paths
    rw [← List.take_append_drop i g.paths, List.mem_append] at mem
    exact h.unvisited p (mem.resolve_left apart.1) b old
  case allowed => exact allowed

/-- The graph of all headers that are needed. -/
structure Complete (r : Resolver) (t : FileTree) (root : String) (g : Graph) : Prop where
  proper : g.Proper
  mem_iff : ∀ p, p ∈ g.paths ↔ p ∈ r.needed t root
  connects : ∀ a ∈ r.needed t root, ∀ b, g.Connects a b ↔ r.Includes t a b
  allowed : g.length ≤ r.budget

theorem Discovered.complete {i : Nat} {g : Graph} (h : Discovered r t root i g)
    (all : g.length ≤ i) : Complete r t root g := by
  have whole : g.paths.take i = g.paths :=
    List.take_of_length_le (by rwa [Graph.paths, List.length_map])
  have visited := h.visited
  rw [whole] at visited
  have mem {p : String} (hp : p ∈ r.needed t root) : p ∈ g.paths := by
    induction hp with
    | refl => exact h.root_mem
    | tail _ e ih => exact (visited _ ih _).2 e
  constructor
  case proper => exact h.proper
  case mem_iff => exact fun p => ⟨h.needed p, mem⟩
  case connects => exact fun a ha b => (visited a (mem ha) b).1
  case allowed => exact h.allowed

/-- The graph of what is needed, or the error that says that it is too much. -/
def Found (r : Resolver) (t : FileTree) (root : String) : Except RunError Graph → Prop
  | .ok g => Complete r t root g
  | .error e => e = .tooManyHeaders (r.budget + 1) r.maxHeaders ∧ Exceeds r t root

variable (programs)

theorem discoverFrom_spec (readable : ∀ p ∈ r.needed t root, ∃ source, t.source? p = some source)
    {steps i : Nat} {g : Graph} (h : Discovered r t root i g) (enough : r.budget ≤ steps + i) :
    ∃ outcome, (r.discoverFrom (FileTree.host programs) steps i g).run.run t = (outcome, t) ∧
      Found r t root outcome := by
  induction steps generalizing i g with
  | zero => exact ⟨.ok g, rfl, h.complete (h.allowed.trans (by omega))⟩
  | succ steps ih =>
    rw [discoverFrom]
    cases next : g[i]? with
    | none => exact ⟨.ok g, rfl, h.complete (List.getElem?_eq_none_iff.mp next)⟩
    | some node =>
      have inside : node.path ∈ g.paths := List.mem_map_of_mem (List.mem_of_getElem? next)
      obtain ⟨source, text⟩ := readable _ (h.needed _ inside)
      dsimp only
      rw [run_bind_ok (includesOf_run text), run_bind_ok (run_lift_eq (resolveAll_run r t _ _))]
      have ext := extend_spec (r := r) (r.targetsOf t node.path source) h.proper inside h.allowed
      rw [← targetsOf]
      cases more : r.extend node.path g (r.targetsOf t node.path source) with
      | ok g' =>
        rw [more] at ext
        rw [run_bind_ok (run_mk_eq _ _)]
        exact ih (h.visit next text ext.1 ext.2) (by omega)
      | error e =>
        rw [more] at ext
        obtain ⟨rfl, l, nodup, mem, count⟩ := ext
        refine ⟨_, run_bind_error (run_mk_eq _ _) _, rfl, l, nodup, fun p hp => ?_, count⟩
        rcases mem p hp with hp | hp
        · exact h.needed p hp
        · exact ReflTransGen.tail (h.needed _ inside) ((includes_iff text).mpr hp)

/-- Discovery from an existing root finds all headers that are needed, or too many of them. -/
theorem discover_spec {name : String} (known : t.canonical? name = some root)
    (readable : ∀ p ∈ r.needed t root, ∃ source, t.source? p = some source) :
    ∃ outcome, (r.discover (FileTree.host programs) name).run.run t = (outcome, t) ∧
      Found r t root outcome := by
  have start : (liftM ((FileTree.host programs).canonical? name) :
      ExceptT RunError (StateM FileTree) _).run.run t = (.ok (some root), t) :=
    run_lift_eq ((FileTree.host_canonical?_run programs t name).trans (congrArg (·, t) known))
  obtain ⟨outcome, run, found⟩ := discoverFrom_spec programs readable
    (discovered_root r t root) (Nat.le_refl r.budget)
  refine ⟨outcome, ?_, found⟩
  rw [discover, run_bind_ok start]
  exact run

end Resolver

end Include

end ConstLookup
