import ConstLookup.Proofs.Expr.Spelling
import ConstLookup.Proofs.Symbol.FixedPoint
import ConstLookup.Source.Environment
import ConstLookup.Table.Assemble

/-!
  Conditions agree with constant folding (`value?_of_folded`). Folding works from the bottom up,
  and an unknown name is an error; a condition expands names from the top down, and a name that
  is unknown or being expanded is zero. A symbol gets its number from names that have theirs
  already, so its expansion never comes back to it: whatever is closed while it is expanded, its
  value is the same as long as the names with numbers are open (`Expands`).
-/

namespace ConstLookup

open ConstLookup.Text

namespace Condition

/-! ## Texts without the operator `defined` -/

/-- The text holds the word that begins the operator `defined`. -/
def mentionsDefined (text : String) : Bool := containsText "defined".toList text.toList

/-- A text without the word `defined` holds no such operator. -/
theorem expandFrom_eq_self (env : Environment) {cs : List Char}
    (h : containsText "defined".toList cs = false) (inWord : Bool) :
    expandFrom env inWord cs = cs := by
  induction cs generalizing inWord with
  | nil => rw [expandFrom]
  | cons c cs ih =>
    rw [containsText, Bool.or_eq_false_iff] at h
    have none : operator? (c :: cs) = none := by
      rw [operator?, after?, h.1]
      rfl
    rw [expandFrom]
    split
    next found => rw [none] at found; cases found
    next => rw [ih h.2]

theorem expand_eq_self (env : Environment) {text : String} (h : mentionsDefined text = false) :
    expand env text = text := by
  rw [expand, expandFrom_eq_self env h, String.ofList_toList]

/-! ## Expanding resolved names -/

/-- The names with a number have it also when they are expanded, whatever other names are closed. -/
def Expands (env : Environment) (known : Resolver) : Prop :=
  ∀ unopened : Environment, (∀ name, known name ≠ none → unopened.get? name = env.get? name) →
    Resolver.Le known (value? env unopened)

theorem Expands.none (env : Environment) : Expands env fun _ => none := fun _ _ _ _ => nofun

/-- A name that is open has the value of its body with the name closed. -/
theorem value?_of_body {env unopened : Environment} {name body : String} {v : Number}
    (opened : unopened.get? name = some body) (plain : mentionsDefined body = false)
    (value : evaluate (value? env (unopened.erase name)) body = .ok (some v)) :
    value? env unopened name = some v := by
  rw [value?]
  split
  · next closed => rw [opened] at closed; cases closed
  · next body' found =>
    obtain rfl := Option.some.inj (opened.symm.trans found)
    rw [expand_eq_self env plain, value]
    rfl

/-- The number that evaluation of a body gives from the names with numbers is also found when the
name is expanded: it is closed then, but none of the names with numbers is. -/
theorem Expands.update {env : Environment} {known : Resolver} (h : Expands env known)
    {name body : String} {v : Number} (defined : env.get? name = some body)
    (plain : mentionsDefined body = false) (fresh : known name = Option.none)
    (value : evaluate known body = .ok (some v)) :
    Expands env (Function.update known name (some v)) := by
  intro unopened opened other w number
  have older {z : String} (hz : known z ≠ Option.none) : z ≠ name := fun same => hz (same ▸ fresh)
  have opened' {z : String} (hz : known z ≠ Option.none) : unopened.get? z = env.get? z :=
    opened z (by rwa [Function.update_of_ne (older hz)])
  by_cases same : other = name
  · subst same
    rw [Function.update_self] at number
    obtain rfl := Option.some.inj number
    have inside : Resolver.Le known (value? env (unopened.erase other)) :=
      h _ fun z hz => by
        rw [Environment.get?_erase, if_neg (older hz).symm, opened' hz]
    refine value?_of_body ?_ plain (Fold.evaluate_of_le inside value (FailsWith.ok _))
    rw [opened other (by rw [Function.update_self]; exact Option.some_ne_none v), defined]
  · rw [Function.update_of_ne same] at number
    exact h unopened (fun z hz => opened' hz) other w number

/-- The numbers that folding finds are those of the definitions, expanded. -/
theorem expands_fold {maxPasses : Nat} {t : SymbolTable} {env : Environment}
    (start : t.number? = fun _ => none)
    (defined : ∀ p ∈ Fold.pending t, env.get? p.name = some p.text)
    (plain : ∀ p ∈ Fold.pending t, mentionsDefined p.text = false) :
    Expands env (Fold.fold maxPasses t).1.number? := by
  refine Fold.passes_invariant (Expands env) (Fold.ready_pending t)
    (fun p hp K v inv fresh value => inv.update (defined p hp) (plain p hp) fresh value) ?_
  rw [← Fold.marked, Fold.marked_number?, start]
  exact .none env

/-! ## Macros -/

/-- The table of macros holds their bodies, and nothing else. -/
theorem value?_macros {path : String} {macros : List MacroDecl} {name : String} {v : SymbolValue}
    (h : (Assemble.symbolTable [] [⟨path, { macros := macros }⟩]).value? name = some v) :
    ∃ m ∈ macros, m.name = name ∧ v = .expr m.body := by
  rcases SymbolTable.value?_foldl_insert h with none | ⟨s, hs, rfl, rfl⟩
  · rw [SymbolTable.value?, SymbolTable.get?_empty] at none
    cases none
  · simp only [List.map_nil, List.nil_append, List.flatMap_cons, List.flatMap_nil,
      List.append_nil, Assemble.symbolsOf, List.mem_map] at hs
    obtain ⟨m, hm, rfl⟩ := hs
    exact ⟨m, (List.mem_filter.mp hm).1, rfl, rfl⟩

theorem pending_macros {path : String} {macros : List MacroDecl} {p : Fold.Pending}
    (hp : p ∈ Fold.pending (Assemble.symbolTable [] [⟨path, { macros := macros }⟩])) :
    ∃ m ∈ macros, m.name = p.name ∧ m.body = p.text := by
  obtain ⟨m, hm, name, body⟩ := value?_macros (Fold.pending_value? hp)
  exact ⟨m, hm, name, (SymbolValue.expr.inj body).symm⟩

theorem number?_macros (path : String) (macros : List MacroDecl) :
    (Assemble.symbolTable [] [⟨path, { macros := macros }⟩]).number? = fun _ => none := by
  funext name
  refine Option.eq_none_iff_forall_ne_some.mpr fun v number => ?_
  obtain ⟨m, -, -, body⟩ := value?_macros (SymbolTable.number?_eq_some_iff.mp number)
  cases body

/-- A condition that is a name holds if its number is not zero. -/
theorem holds_name {env : Environment} (n : ConstantName) (plain : mentionsDefined n.text = false)
    {v : Number} (value : value? env env n.text = some v) : holds env n.text = v.isTrue := by
  have spelled : Spells [.ident n.text] n.text.toList := .single (.ident n.text)
  have token : ∀ t ∈ [Token.ident n.text], t.Plain := List.forall_mem_singleton.mpr n.identifier
  obtain ⟨ts, lexed, same⟩ := Lexer.tokens_spelled spelled token
  have read : Eval.tokens (value? env env) ts = .ok (some v) := by
    rw [(Eval.tokens_eval _ (.name n) same).eq (Nat.le_of_ble_eq_true rfl), ExprTree.eval, value]
    rfl
  have whole : evaluate (value? env env) n.text = .ok (some v) := by
    rw [evaluate, HexShield.shield_spelled spelled token, evaluateShielded, lexed]
    exact read
  rw [holds, expand_eq_self env plain, whole]

/-- Conditions agree with folding. If folding gives a macro a number, in any number of passes, the
macro has the same number in a condition under an environment that holds the same definitions,
and the branch under it is taken if this is not zero. The environment may hold further
definitions; bodies must not mention the operator `defined`, which has no meaning in folding. -/
theorem value?_of_folded {macros : List MacroDecl} {env : Environment}
    (defined : ∀ m ∈ macros, env.get? m.name = some m.body)
    (plain : ∀ m ∈ macros, mentionsDefined m.body = false) (path : String) (maxPasses : Nat) :
    let symbols := Assemble.symbolTable [] [⟨path, { macros := macros }⟩]
    let folded := (Fold.fold maxPasses symbols).1
    ∀ name v, folded.value? name = some (.number v) →
      value? env env name = some v ∧
      ∀ n : ConstantName, n.text = name → mentionsDefined name = false →
        holds env name = v.isTrue := by
  intro symbols folded name v number
  have expands : Expands env folded.number? := by
    refine expands_fold (number?_macros path macros) (fun p hp => ?_) fun p hp => ?_
    · obtain ⟨m, hm, name, body⟩ := pending_macros hp
      rw [← name, ← body, defined m hm]
    · obtain ⟨m, hm, -, body⟩ := pending_macros hp
      rw [← body, plain m hm]
  have value : value? env env name = some v :=
    expands env (fun _ _ => rfl) name v (SymbolTable.number?_eq_some_iff.mpr number)
  refine ⟨value, ?_⟩
  rintro n rfl named
  exact holds_name n named value

/-- A macro that mentions itself where it does not matter. -/
def selfish : MacroDecl := ⟨"A", "1 || A", ⟨"test.h", 1, 0⟩⟩

/-- A macro that mentions itself has its number in a condition, where it is closed. -/
theorem value?_of_folded_selfish :
    (∀ m ∈ [selfish], Environment.get? [("A", "1 || A")] m.name = some m.body) ∧
      (∀ m ∈ [selfish], mentionsDefined m.body = false) ∧
      value? [("A", "1 || A")] [("A", "1 || A")] "A" = some (.int 1) ∧
      holds [("A", "1 || A")] "A" = true := by
  have defined : ∀ m ∈ [selfish], Environment.get? [("A", "1 || A")] m.name = some m.body := by
    decide
  have plain : ∀ m ∈ [selfish], mentionsDefined m.body = false := by decide
  have size : (Assemble.symbolTable [] [⟨"test.h", { macros := [selfish] }⟩]).size < 1024 :=
    Nat.lt_of_le_of_lt (SymbolTable.size_insert_le _ _) (by decide)
  have number (known : Resolver) : evaluate known "1 || A" = .ok (some (.int 1)) := by
    have marked : HexShield.shield "1 || A" = "1 || A" := by decide +kernel
    have lexed : Lexer.tokens "1 || A".toList =
        .ok [(.int 1, 0), (.mark .or, 2), (.ident "A", 5)] := rfl
    rw [evaluate, marked, evaluateShielded, lexed]
    rfl
  have folded := ((Fold.fold_symbol size (p := ⟨"A", "1 || A", some ⟨"test.h", 1, 0⟩⟩)
    (Fold.mem_pending.mpr ⟨_, SymbolTable.mem_single (Assemble.macroSymbol selfish), rfl, rfl,
      rfl⟩)).1 (.int 1)).mpr (number _)
  obtain ⟨value, branch⟩ := value?_of_folded defined plain "test.h" 1024 "A" (.int 1) folded
  exact ⟨defined, plain, value,
    branch ⟨"A", by decide, by decide, by decide, by decide⟩ rfl (by decide)⟩

end Condition

end ConstLookup
