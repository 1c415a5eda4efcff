import ConstLookup.Headers
import ConstLookup.Proofs.Define
import ConstLookup.Proofs.Expr.Spelling
import ConstLookup.Proofs.Source.Words

/-!
  The names of macros. Every name in an environment is a word of C: the definitions of a command
  line name identifiers (`named_ofDefines`), and a source defines only what the lexer reads as a word
  (`declarations_named_environment`). So this holds in front of every source that is read
  (`HeaderText.named_of_parseAll`).
-/

namespace ConstLookup

/-- Every macro is named by a word. -/
def Environment.Named (env : Environment) : Prop := ∀ entry ∈ env, Source.IsName entry.1.toList

namespace Environment

variable {env : Environment}

theorem named_nil : Named [] := nofun

theorem Named.erase (h : env.Named) (name : String) : (env.erase name).Named :=
  fun entry mem => h entry (List.mem_filter.mp mem).1

theorem Named.insert (h : env.Named) {name : String} (word : Source.IsName name.toList)
    (body : String) : (env.insert name body).Named :=
  List.forall_mem_cons.mpr ⟨word, h.erase name⟩

/-- No macro has a name that is no word, so there is none to remove. -/
theorem Named.erase_eq_self (h : env.Named) {name : String}
    (noWord : ¬ Source.IsName name.toList) : env.erase name = env := by
  refine List.filter_eq_self.mpr fun entry mem => decide_eq_true ?_
  rintro rfl
  exact noWord (h entry mem)

end Environment

namespace Source

open ConstLookup.Text ConstLookup.Source.Lexer

/-! ## Definitions of a command line -/

theorem isName_of_isIdentifier {w : List Char} (h : isIdentifier w = true) : IsName w := by
  cases w with
  | nil => cases h
  | cons c cs =>
    obtain ⟨start, part⟩ := Bool.and_eq_true_iff.mp h
    refine ⟨?_, fun d hd =>
      Bool.or_eq_true_iff.mpr (.inl (isWord_of_part (List.all_eq_true.mp part d hd)))⟩
    have noDigit : isDigit c = false := ConstLookup.Lexer.not_isDigit_of_isIdentStart start
    simp [startsWord, isWord_of_part (Text.isIdentPart_of_isIdentStart start), noDigit]

theorem named_ofDefines {defines : List Define}
    (h : ∀ d ∈ defines, isIdentifier d.name.toList = true) :
    (Environment.ofDefines defines).Named := by
  suffices run : ∀ env : Environment, env.Named →
      Environment.Named (defines.foldl (fun env d => env.insert d.name (d.body.getD "")) env) from
    run [] Environment.named_nil
  induction defines with
  | nil => exact fun _ start => start
  | cons d ds ih =>
    obtain ⟨own, others⟩ := List.forall_mem_cons.mp h
    exact fun env start => ih others _ (start.insert (isName_of_isIdentifier own) _)

/-! ## Directives -/

/-- The macro that the directive defines is named by a word. -/
def Directive.Named : Directive → Prop
  | define name _ | defineFunction name => IsName name.toList
  | _ => True

theorem consumed_dropWhile (p : Char → Bool) (cs : List Char) :
    consumed cs (cs.dropWhile p) = cs.takeWhile p := by
  have whole := consumed_append (cs.takeWhile p) (cs.dropWhile p)
  rwa [List.takeWhile_append_dropWhile] at whole

theorem isName_of_nextWord? {cs rest : List Char} {name : String}
    (h : nextWord? cs = some (name, rest)) : IsName name.toList := by
  unfold nextWord? at h
  split at h
  · cases h
  · next c more _ =>
    split at h
    · next start =>
      cases h
      rw [String.toList_ofList, consumed_dropWhile]
      exact ⟨start, List.all_eq_true.mp List.all_takeWhile⟩
    · cases h

theorem definition_named (cs : List Char) : (definition cs).1.Named := by
  rw [definition]
  split
  · trivial
  · next word => exact isName_of_nextWord? word
  · next word => exact isName_of_nextWord? word

theorem inclusion_named (cs : List Char) : (inclusion cs).1.Named := by
  rw [inclusion]
  split <;> trivial

theorem directive_named (word spelling : String) (cs : List Char) :
    (directive word spelling cs).1.Named := by
  unfold directive
  dsimp only
  split
  · exact definition_named cs
  · exact inclusion_named cs
  all_goals trivial

/-! ## Tokens and parts -/

/-- The macro that the token defines, if it does, is named by a word. -/
def Token.DefinesWord (t : Token) : Prop := ∀ d, t.kind = .directive d → d.Named

theorem hash_definesWord {cs : List Char} {d : Directive} (h : (Lexer.hash cs).1 = .directive d) :
    d.Named := by
  unfold Lexer.hash at h
  dsimp only at h
  split at h
  · cases h
  · cases h
    exact directive_named _ _ _

theorem lexeme_ne_directive (marks : List String) (c : Char) (cs : List Char) (d : Directive) :
    (lexeme marks c cs).1 ≠ .directive d := by
  unfold lexeme
  split
  · split <;> nofun
  · split
    · nofun
    · split
      · nofun
      · split <;> nofun

theorem tokens_definesWord (cs : List Char) : ∀ t ∈ tokens cs, t.DefinesWord :=
  tokens_all (P := fun kind _ => ∀ d, kind = .directive d → d.Named)
    (fun _ _ => hash_definesWord)
    (fun c cs d found => absurd found (lexeme_ne_directive longMarks c cs d)) cs

/-- The macro that the part defines, if it does, is named by a word. -/
def Part.DefinesWord : Part → Prop
  | .definition name _ _ | .functionDefinition name => IsName name.toList
  | _ => True

theorem Part.ofDirective?_definesWord {position : Position} {d : Directive} (named : d.Named)
    {part : Part} (h : Part.ofDirective? position d = some part) : part.DefinesWord := by
  unfold Part.ofDirective? at h
  split at h <;> cases h
  · exact named
  · exact named
  · trivial

theorem partsFrom_definesWord {blocks : Blocks Token} (h : blocks.All Token.DefinesWord)
    (skip : Nat) : (partsFrom skip blocks).All Part.DefinesWord :=
  partsFrom_all (fun _ d _ word kind => Part.ofDirective?_definesWord (word d kind))
    (fun _ _ _ _ _ _ => trivial) h skip

/-- Every macro known at the place is named by a word. -/
def Reading.KnowsWords (r : Reading) : Prop := r.environment.Named

theorem Reading.KnowsWords.step {file : String} {r : Reading} (h : r.KnowsWords) {part : Part}
    (word : part.DefinesWord) : (r.step file part).KnowsWords := by
  cases part with
  | definition | functionDefinition => exact Environment.Named.insert h word _
  | removal name => exact Environment.Named.erase h name
  | enumeration form =>
    rw [Reading.step]
    split <;> exact h

/-- After a source, too, every macro is named by a word. -/
theorem declarations_named_environment {env : Environment} (h : env.Named) (file source : String) :
    (declarations env file source).2.Named := by
  have all : (parts (Blocks.ofTokens (tokensOf source))).All Part.DefinesWord :=
    partsFrom_definesWord (Blocks.ofTokens_all (tokens_definesWord _)) 0
  have start : ({ environment := env } : Reading).KnowsWords := h
  have read : (Reading.ofParts file env (parts (Blocks.ofTokens (tokensOf source)))).KnowsWords :=
    all.run (fun _ _ word known => known.step word) start
  exact read

end Source

/-- After headers read in turn every macro is named by a word. -/
theorem HeaderText.declarations_named_environment {env : Environment} (h : env.Named)
    (headers : List HeaderText) : (HeaderText.declarations env headers).2.Named := by
  induction headers generalizing env with
  | nil => exact h
  | cons header headers ih => exact ih (Source.declarations_named_environment h _ _)

/-- Under the definitions of a command line, headers read in turn leave only macros that are named
by words. -/
theorem HeaderText.named_of_parseAll {arguments : List String} {defines : List Define}
    (h : Define.parseAll arguments = .ok defines) (headers : List HeaderText) :
    (HeaderText.declarations (.ofDefines defines) headers).2.Named :=
  HeaderText.declarations_named_environment
    (Source.named_ofDefines (Define.isIdentifier_of_parseAll h)) headers

end ConstLookup
