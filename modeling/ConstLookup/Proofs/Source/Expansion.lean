import ConstLookup.Proofs.Expr.Names
import ConstLookup.Proofs.Source.Condition
import Mathlib.Data.Finset.Card
import Mathlib.Logic.Relation

/-!
  Names inside their own expansion. `resolve` gives a name its value while other names are under
  expansion, and a name that is one of them counts as zero. The names under expansion are distinct
  macros, so there are at most as many as the environment has, and with that much room the
  expansion is never cut short (`resolveWithin_eq`). Where no macro comes back to itself through
  the names of bodies, the names under expansion do not matter: a macro is worth what its body is
  worth (`resolve_of_acyclic`).
-/

namespace ConstLookup

namespace Environment

/-- The definitions of the names that are not listed. -/
def without (env : Environment) (closed : List String) : Environment :=
  env.filter fun entry => entry.1 ∉ closed

/-- The number of names that are defined. -/
def size (env : Environment) : Nat := (env.map (·.1)).toFinset.card

theorem without_nil (env : Environment) : env.without [] = env := by
  simp [without]

theorem without_cons (env : Environment) (name : String) (closed : List String) :
    env.without (name :: closed) = (env.without closed).erase name := by
  rw [without, without, erase, List.filter_filter]
  refine List.filter_congr fun entry _ => ?_
  simp

theorem get?_without (env : Environment) (closed : List String) (name : String) :
    (env.without closed).get? name = if name ∈ closed then none else env.get? name := by
  induction closed with
  | nil => rw [without_nil, if_neg List.not_mem_nil]
  | cons other closed ih =>
    rw [without_cons, get?_erase, ih]
    by_cases same : other = name
    · simp [same]
    · simp [same, Ne.symm same]

theorem mem_names {env : Environment} {name : String} :
    name ∈ (env.map (·.1)).toFinset ↔ env.isDefined name = true := by
  induction env with
  | nil => simp [isDefined, get?]
  | cons entry env ih =>
    rw [isDefined] at ih ⊢
    rw [List.map_cons, List.toFinset_cons, Finset.mem_insert, ih, get?_cons]
    by_cases same : entry.1 = name
    · simp [same]
    · simp [same, Ne.symm same]

theorem size_erase_lt {env : Environment} {name : String} (h : env.isDefined name = true) :
    (env.erase name).size < env.size := by
  refine Finset.card_lt_card (Finset.ssubset_iff_subset_ne.mpr ⟨fun other mem => ?_, fun same => ?_⟩)
  · rw [mem_names, isDefined, get?_erase] at mem
    rw [mem_names, isDefined]
    split at mem
    · cases mem
    · exact mem
  · have gone : name ∈ ((env.erase name).map (·.1)).toFinset := same ▸ mem_names.mpr h
    rw [mem_names, isDefined, get?_erase, if_pos rfl] at gone
    cases gone

end Environment

namespace Condition

variable {env : Environment} {active : List String} {name : String}

/-! ## Names under expansion -/

/-- The value of a name in a condition while the listed names are under expansion, innermost
first. -/
def resolve (env : Environment) (active : List String) : Resolver := value? env (env.without active)

theorem resolve_nil (env : Environment) : resolve env [] = value? env env := by
  rw [resolve, Environment.without_nil]

/-- A name under expansion and a name without definition are zero. Any other name is under
expansion while its body is evaluated. -/
theorem resolve_eq (env : Environment) (active : List String) (name : String) :
    resolve env active name =
      if name ∈ active then some (.int 0)
      else match env.get? name with
        | none => some (.int 0)
        | some body => (evaluate (resolve env (name :: active)) (expand env body)).toOption.join := by
  have inside : value? env ((env.without active).erase name) = resolve env (name :: active) := by
    rw [resolve, Environment.without_cons]
  rw [resolve, value?]
  split
  next closed =>
    rw [Environment.get?_without] at closed
    split
    next => rfl
    next opened =>
      rw [if_neg opened] at closed
      rw [closed]
  next body found =>
    rw [Environment.get?_without] at found
    split at found
    next => cases found
    next opened =>
      rw [if_neg opened, found, ← inside]

theorem resolve_of_body {body : String} (opened : name ∉ active)
    (defined : env.get? name = some body) : resolve env active name =
      (evaluate (resolve env (name :: active)) (expand env body)).toOption.join := by
  rw [resolve_eq, if_neg opened, defined]

theorem resolve_of_not_defined (opened : name ∉ active) (undefined : env.get? name = none) :
    resolve env active name = some (.int 0) := by
  rw [resolve_eq, if_neg opened, undefined]

/-! ## Room for expansions -/

/-- The names under expansion, innermost first, and the text that is evaluated under them, as they
come up while a condition is evaluated. -/
inductive Expanding (env : Environment) (text : String) : List String → String → Prop where
  | condition : Expanding env text [] (expand env text)
  | body {active : List String} {current name body : String}
      (outer : Expanding env text active current) (asked : name ∈ exprNames current)
      (opened : name ∉ active) (defined : env.get? name = some body) :
      Expanding env text (name :: active) (expand env body)

/-- Names under expansion are distinct and defined. -/
theorem Expanding.distinct {text current : String} (h : Expanding env text active current) :
    active.Nodup ∧ ∀ name ∈ active, env.isDefined name = true := by
  induction h with
  | condition => exact ⟨List.nodup_nil, nofun⟩
  | body _ _ opened defined ih =>
    refine ⟨List.nodup_cons.mpr ⟨opened, ih.1⟩, List.forall_mem_cons.mpr ⟨?_, ih.2⟩⟩
    rw [Environment.isDefined, defined]
    rfl

theorem Expanding.length_le {text current : String} (h : Expanding env text active current) :
    active.length ≤ env.size := by
  obtain ⟨nodup, defined⟩ := h.distinct
  rw [← List.toFinset_card_of_nodup nodup]
  refine Finset.card_le_card fun name mem => ?_
  exact Environment.mem_names.mpr (defined name (List.mem_toFinset.mp mem))

/-- The value of a name as `resolve` gives it, where at most `room` more names may come under
expansion: for a name beyond them, `beyond` answers. -/
def resolveWithin (beyond : Resolver) (env : Environment) (room : Nat) (active : List String)
    (name : String) : Option Number :=
  if name ∈ active then some (.int 0)
  else match env.get? name with
    | none => some (.int 0)
    | some body =>
      match room with
      | 0 => beyond name
      | room + 1 =>
        (evaluate (resolveWithin beyond env room (name :: active)) (expand env body)).toOption.join

/-- Every expansion takes a name off the environment. -/
theorem size_without_lt {body : String} (opened : name ∉ active)
    (defined : env.get? name = some body) :
    (env.without (name :: active)).size < (env.without active).size := by
  rw [Environment.without_cons]
  refine Environment.size_erase_lt ?_
  rw [Environment.isDefined, Environment.get?_without, if_neg opened, defined]
  rfl

/-- With room for the names that are left, nothing is asked of `beyond`. -/
theorem resolveWithin_eq (beyond : Resolver) {room : Nat}
    (enough : (env.without active).size ≤ room) :
    resolveWithin beyond env room active = resolve env active := by
  induction room generalizing active with
  | zero =>
    funext name
    rw [resolveWithin, resolve_eq]
    split
    · rfl
    next opened =>
      cases defined : env.get? name with
      | none => rfl
      | some body =>
        have fewer := size_without_lt opened defined
        omega
  | succ room ih =>
    funext name
    rw [resolveWithin, resolve_eq]
    split
    · rfl
    next opened =>
      cases defined : env.get? name with
      | none => rfl
      | some body =>
        have fewer := size_without_lt opened defined
        dsimp only
        rw [ih (by omega)]

/-! ## Environments without cycles -/

/-- The other name stands in the body of the name, once the operator `defined` is replaced. -/
def Mentions (env : Environment) (name other : String) : Prop :=
  ∃ body, env.get? name = some body ∧ other ∈ exprNames (expand env body)

/-- The other name is mentioned by the name, or by one that the name reaches. -/
def Reaches (env : Environment) : String → String → Prop := Relation.TransGen (Mentions env)

/-- The names under expansion stay apart from what a mentioned name is or reaches. -/
theorem apart_of_mentions (acyclic : ∀ n, ¬ Reaches env n n) {other : String}
    (mentions : Mentions env name other) (apart : ∀ n ∈ active, ¬ Reaches env name n) :
    other ∉ name :: active ∧ ∀ n ∈ name :: active, ¬ Reaches env other n := by
  have step : Reaches env name other := .single mentions
  refine ⟨fun mem => ?_, fun n mem reached => ?_⟩
  · rcases List.mem_cons.mp mem with rfl | mem
    · exact acyclic _ step
    · exact apart other mem step
  · rcases List.mem_cons.mp mem with rfl | mem
    · exact acyclic _ (step.trans reached)
    · exact apart n mem (step.trans reached)

/-- Two lists of names under expansion give a name the same value if it neither is nor reaches one
of them. -/
theorem resolve_congr (acyclic : ∀ n, ¬ Reaches env n n) {active' : List String}
    (opened : name ∉ active) (opened' : name ∉ active')
    (apart : ∀ n ∈ active, ¬ Reaches env name n) (apart' : ∀ n ∈ active', ¬ Reaches env name n) :
    resolve env active name = resolve env active' name := by
  induction h : (env.without active).size using Nat.strongRecOn generalizing active active' name with
  | ind left ih =>
    cases defined : env.get? name with
    | none => rw [resolve_of_not_defined opened defined, resolve_of_not_defined opened' defined]
    | some body =>
      have fewer := size_without_lt opened defined
      have bodies : evaluate (resolve env (name :: active)) (expand env body) =
          evaluate (resolve env (name :: active')) (expand env body) := by
        refine evaluate_congr fun other mem => ?_
        have mentions : Mentions env name other := ⟨body, defined, mem⟩
        obtain ⟨inner, reached⟩ := apart_of_mentions acyclic mentions apart
        obtain ⟨inner', reached'⟩ := apart_of_mentions acyclic mentions apart'
        exact ih _ (h ▸ fewer) inner inner' reached reached' rfl
      rw [resolve_of_body opened defined, resolve_of_body opened' defined, bodies]

/-- Without cycles a macro is worth what its body is worth. -/
theorem resolve_of_acyclic (acyclic : ∀ n, ¬ Reaches env n n) {body : String}
    (defined : env.get? name = some body) : resolve env [] name =
      (evaluate (resolve env []) (expand env body)).toOption.join := by
  have bodies : evaluate (resolve env [name]) (expand env body) =
      evaluate (resolve env []) (expand env body) := by
    refine evaluate_congr fun other mem => ?_
    have mentions : Mentions env name other := ⟨body, defined, mem⟩
    have none : ∀ n ∈ ([] : List String), ¬ Reaches env name n := nofun
    obtain ⟨inner, reached⟩ := apart_of_mentions acyclic mentions none
    exact resolve_congr acyclic inner List.not_mem_nil reached nofun
  rw [resolve_of_body List.not_mem_nil defined, bodies]

/-- Evaluating a condition never has more names under expansion than the environment has: they are
distinct and defined, and what a deeper expansion would answer does not matter. Where no name
reaches itself, a name has the same value under all names that it neither is nor reaches. -/
theorem expansion_wellFounded (env : Environment) :
    (∀ (beyond : Resolver) (text : String),
      evaluate (resolveWithin beyond env env.size []) (expand env text) =
        evaluate (value? env env) (expand env text)) ∧
    (∀ (text : String) (active : List String) (current : String),
      Expanding env text active current →
        active.Nodup ∧ (∀ name ∈ active, env.isDefined name = true) ∧
          active.length ≤ env.size) ∧
    ((∀ n, ¬ Reaches env n n) → ∀ (name : String) (active : List String),
      name ∉ active → (∀ n ∈ active, ¬ Reaches env name n) →
        resolve env active name = resolve env [] name ∧
        resolve env [] name = match env.get? name with
          | none => some (.int 0)
          | some body => (evaluate (resolve env []) (expand env body)).toOption.join) := by
  refine ⟨fun beyond text => ?_, fun text active current h => ?_, ?_⟩
  · have enough : (env.without []).size ≤ env.size := by rw [env.without_nil]
    rw [resolveWithin_eq beyond enough, resolve_nil]
  · exact ⟨h.distinct.1, h.distinct.2, h.length_le⟩
  · intro acyclic name active opened apart
    refine ⟨resolve_congr acyclic opened List.not_mem_nil apart nofun, ?_⟩
    cases defined : env.get? name with
    | none => exact resolve_of_not_defined List.not_mem_nil defined
    | some body => exact resolve_of_acyclic acyclic defined

/-- Each name stands for the next. -/
def chain : Environment := [("C", "A * 2"), ("A", "B + 1"), ("B", "2")]

theorem chain_mentions {other : String} (h : Mentions chain name other) :
    name = "C" ∧ other = "A" ∨ name = "A" ∧ other = "B" := by
  obtain ⟨body, defined, mem⟩ := h
  have read {text : String} {ts : List (Token × Nat)} (plain : mentionsDefined text = false)
      (marked : HexShield.shield text = text) (lexed : Lexer.tokens text.toList = .ok ts) :
      exprNames (expand chain text) = Eval.words ts := by
    rw [expand_eq_self chain plain, exprNames, marked, lexed]
  simp only [chain, Environment.get?_cons, Environment.get?_nil] at defined
  split at defined
  next first =>
    obtain rfl := Option.some.inj defined
    rw [read (by decide) (by decide +kernel) rfl] at mem
    exact .inl ⟨first.symm, List.mem_singleton.mp mem⟩
  split at defined
  next second =>
    obtain rfl := Option.some.inj defined
    rw [read (by decide) (by decide +kernel) rfl] at mem
    exact .inr ⟨second.symm, List.mem_singleton.mp mem⟩
  split at defined
  next =>
    obtain rfl := Option.some.inj defined
    rw [read (by decide) (by decide +kernel) rfl] at mem
    cases mem
  next => cases defined

/-- What the names of the chain reach stands after them. -/
theorem chain_reaches {other : String} (h : Reaches chain name other) :
    name = "C" ∧ (other = "A" ∨ other = "B") ∨ name = "A" ∧ other = "B" := by
  induction h with
  | single first =>
    rcases chain_mentions first with ⟨rfl, rfl⟩ | ⟨rfl, rfl⟩
    · exact .inl ⟨rfl, .inl rfl⟩
    · exact .inr ⟨rfl, rfl⟩
  | tail _ last ih =>
    rcases chain_mentions last with ⟨rfl, rfl⟩ | ⟨rfl, rfl⟩
    · simp at ih
    · rcases ih with ⟨rfl, -⟩ | ⟨-, same⟩
      · exact .inl ⟨rfl, .inr rfl⟩
      · exact absurd same (by decide)

/-- The second name of the chain is worth the same while the first is under expansion. -/
theorem expansion_wellFounded_chain :
    resolve chain ["C"] "A" = resolve chain [] "A" ∧
      resolve chain [] "A" =
        (evaluate (resolve chain []) (expand chain "B + 1")).toOption.join := by
  refine (expansion_wellFounded chain).2.2 (fun n h => ?_) "A" ["C"] (by decide) fun n mem h => ?_
  · rcases chain_reaches h with ⟨rfl, same⟩ | ⟨rfl, same⟩
    · exact absurd same (by decide)
    · exact absurd same (by decide)
  · rw [List.mem_singleton] at mem
    subst mem
    have reached := chain_reaches h
    simp at reached

end Condition

end ConstLookup
