import ConstLookup.Include.Discover

/-!
  Computations that leave the state as it is. Of what a host can do only writing may change
  something (`Host.Preserves`); all that looks for headers asks the host for the rest, so it
  changes nothing, whatever it finds and however it fails.
-/

namespace ConstLookup

/-- The computation leaves every state as it is. -/
def Keeps {σ α : Type} (x : StateM σ α) : Prop := ∀ s, (x.run s).2 = s

namespace Keeps

variable {σ α β ε ε' : Type}

theorem pure (a : α) : Keeps (Pure.pure a : StateM σ α) := fun _ => rfl

theorem bind {x : StateM σ α} {f : α → StateM σ β} (hx : Keeps x) (hf : ∀ a, Keeps (f a)) :
    Keeps (x >>= f) := by
  intro s
  rw [StateT.run_bind]
  exact (hf _ _).trans (hx s)

theorem map {x : StateM σ α} (hx : Keeps x) (f : α → β) : Keeps (f <$> x) := by
  rw [map_eq_pure_bind]
  exact hx.bind fun a => pure (f a)

/-! A computation that may fail keeps the state in either case. -/

theorem run_pure (a : α) : Keeps (Pure.pure a : ExceptT ε (StateM σ) α).run := fun _ => rfl

theorem run_throw (e : ε) : Keeps (throw e : ExceptT ε (StateM σ) α).run := fun _ => rfl

theorem run_mk (outcome : Except ε α) :
    Keeps (ExceptT.mk (Pure.pure outcome) : ExceptT ε (StateM σ) α).run := fun _ => rfl

theorem run_lift {x : StateM σ α} (hx : Keeps x) :
    Keeps (ExceptT.lift x : ExceptT ε (StateM σ) α).run := by
  rw [ExceptT.run_lift]
  exact hx.map _

theorem run_bind {x : ExceptT ε (StateM σ) α} {f : α → ExceptT ε (StateM σ) β}
    (hx : Keeps x.run) (hf : ∀ a, Keeps (f a).run) : Keeps (x >>= f).run := by
  rw [ExceptT.run_bind]
  refine hx.bind fun outcome => ?_
  cases outcome with
  | ok a => exact hf a
  | error e => exact pure _

theorem run_map {x : ExceptT ε (StateM σ) α} (hx : Keeps x.run) (f : α → β) :
    Keeps (f <$> x).run := by
  rw [ExceptT.run_map]
  exact hx.map _

theorem run_adapt {x : ExceptT ε (StateM σ) α} (hx : Keeps x.run) (f : ε → ε') :
    Keeps (x.adapt f).run := hx.map _

end Keeps

/-- All that a host does apart from writing leaves the state as it is. -/
structure Host.Preserves {σ : Type} (host : Host (StateM σ)) : Prop where
  currentDirectory : Keeps host.currentDirectory
  canonical? (path : String) : Keeps (host.canonical? path)
  exists? (path : String) : Keeps (host.exists? path)
  isFile (path : String) : Keeps (host.isFile path)
  isDirectory (path : String) : Keeps (host.isDirectory path)
  read (path : String) : Keeps (host.read path)
  runProgram (program : String) (arguments : List String) :
    Keeps (host.runProgram program arguments)

section Reading

variable {σ : Type} {host : Host (StateM σ)} (h : host.Preserves)

include h

namespace Host.Preserves

theorem readSource (path : String) : Keeps (host.readSource path) := by
  refine (h.read path).bind fun found => ?_
  cases found with
  | ok bytes => exact .pure _
  | error fault => exact .pure _

theorem readText (path : String) : Keeps (host.readText path) := by
  refine (h.read path).bind fun found => ?_
  cases found with
  | ok bytes =>
    dsimp only
    split <;> exact .pure _
  | error fault => exact .pure _

end Host.Preserves

/-! ## Compilers -/

namespace Compiler

theorem run_keeps (compiler : String) (arguments : List String) :
    Keeps (run host compiler arguments) := by
  refine (h.runProgram compiler arguments).bind fun done => ?_
  split
  · exact .pure _
  · exact .pure _
  · split <;> exact .pure _

theorem defaultSearchDirs_keeps (compiler : String) : Keeps (defaultSearchDirs host compiler) := by
  refine (run_keeps h compiler _).bind fun done => ?_
  split <;> exact .pure _

theorem canonicalAll_keeps (paths : List String) : Keeps (canonicalAll host paths) := by
  induction paths with
  | nil => exact .pure _
  | cons path paths ih => exact (h.canonical? path).bind fun _ => ih.bind fun _ => .pure _

theorem dependencyList_keeps (compiler root : String) (includeSystem : Bool)
    (includeDirs : List String) (defines : List Define) :
    Keeps (dependencyList host compiler root includeSystem includeDirs defines) := by
  refine (run_keeps h compiler _).bind fun done => ?_
  split
  · exact .pure _
  · split
    · exact .pure _
    · exact (canonicalAll_keeps h _).bind fun _ => .pure _

end Compiler

/-! ## Looking for headers -/

namespace Include

namespace SearchPath

theorem firstFile?_keeps (paths : List String) : Keeps (firstFile? host paths) := by
  induction paths with
  | nil => exact .pure _
  | cons path paths ih =>
    refine (h.isFile path).bind fun found => ?_
    split
    · exact .pure _
    · exact ih

theorem resolve?_keeps (s : SearchPath) (kind : Kind) (name : String) (includer : Option String) :
    Keeps (s.resolve? host kind name includer) := by
  refine (firstFile?_keeps h _).bind fun found => ?_
  split
  · exact h.canonical? _
  · exact .pure _

theorem missing?_keeps (dirs : List String) : Keeps (missing? host dirs) := by
  induction dirs with
  | nil => exact .pure _
  | cons dir dirs ih =>
    refine (h.isDirectory dir).bind fun found => ?_
    split
    · exact ih
    · exact .pure _

end SearchPath

namespace Resolver

theorem ofOptions_keeps (o : Options) : Keeps (ofOptions host o).run := by
  refine .run_bind (.run_lift (SearchPath.missing?_keeps h _)) fun missing => ?_
  split
  · exact .run_throw _
  · split
    · refine .run_bind (.run_lift (Compiler.defaultSearchDirs_keeps h o.compiler)) fun found => ?_
      cases found with
      | ok dirs => exact .run_bind (.run_pure _) fun _ => .run_pure _
      | error e => exact .run_bind (.run_throw _) fun _ => .run_pure _
    · exact .run_bind (.run_pure _) fun _ => .run_pure _

theorem includesOf_keeps (path : String) : Keeps (includesOf host path).run := by
  refine .run_bind (.run_lift (h.readSource path)) fun found => ?_
  split
  · exact .run_pure _
  · exact .run_throw _

variable (r : Resolver)

theorem resolveAll_keeps (includer : String) (ds : List (Kind × String)) :
    Keeps (r.resolveAll host includer ds) := by
  induction ds with
  | nil => exact .pure _
  | cons d ds ih =>
    exact (SearchPath.resolve?_keeps h _ _ _ _).bind fun _ => ih.bind fun _ => .pure _

theorem discoverFrom_keeps (steps i : Nat) (g : Graph) :
    Keeps (r.discoverFrom host steps i g).run := by
  induction steps generalizing i g with
  | zero => exact .run_pure _
  | succ steps ih =>
    rw [discoverFrom]
    split
    · exact .run_pure _
    · refine .run_bind (includesOf_keeps h _) fun includes => ?_
      refine .run_bind (.run_lift (resolveAll_keeps h r _ _)) fun targets => ?_
      exact .run_bind (.run_mk _) fun g => ih _ g

theorem order_keeps (root : String) : Keeps (r.order host root).run := by
  refine .run_bind (.run_bind (.run_lift (h.canonical? root)) fun path => ?_) fun g => ?_
  · split
    · exact .run_throw _
    · exact discoverFrom_keeps h r _ _ _
  · split
    · exact .run_pure _
    · exact .run_throw _

theorem connectAll_keeps (g : Graph) (paths : List String) :
    Keeps (r.connectAll host g paths).run := by
  induction paths generalizing g with
  | nil => exact .run_pure _
  | cons path paths ih =>
    refine .run_bind (includesOf_keeps h path) fun includes => ?_
    exact .run_bind (.run_lift (resolveAll_keeps h r _ _)) fun targets => ih _

theorem orderListed_keeps (listed : List String) : Keeps (r.orderListed host listed).run := by
  refine .run_bind (connectAll_keeps h r _ _) fun g => ?_
  split <;> exact .run_pure _

theorem orderByCompiler_keeps (compiler root : String) (defines : List Define) :
    Keeps (r.orderByCompiler host compiler root defines).run := by
  refine .run_bind (.run_lift (h.isFile root)) fun found => ?_
  split
  · refine .run_bind (.run_lift (Compiler.dependencyList_keeps h _ _ _ _ _)) fun listed => ?_
    split
    · exact .run_throw _
    · exact .run_bind (orderListed_keeps h r _) fun _ => .run_pure _
  · exact .run_throw _

end Resolver

end Include

end Reading

end ConstLookup
