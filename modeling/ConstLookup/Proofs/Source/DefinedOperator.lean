import ConstLookup.Proofs.Expr.Spelling
import ConstLookup.Proofs.Source.Commands

/-!
  The operator `defined`, token by token. A condition is cut into words and single characters
  (`pieces`), and among these the operator is the whole word `defined` before a name, bare or in
  parentheses (`items`). `expandFrom_items` says what is replaced: every such operator, and every
  word that is `defined` with a name glued to it. So the operator alone is replaced exactly in
  conditions without such a word (`expand_items`).
-/

namespace ConstLookup.Condition

open ConstLookup.Text

/-! ## Pieces of a condition -/

/-- The words of a text, as long as they go, and every other character on its own. -/
def pieces : List Char → List (List Char)
  | [] => []
  | c :: cs =>
    if isWord c then (c :: cs.takeWhile isWord) :: pieces (cs.dropWhile isWord)
    else [c] :: pieces cs
termination_by cs => cs.length
decreasing_by
  · exact Nat.lt_succ_of_le (length_dropWhile_le _ _)
  · simp

/-- The word of the operator. -/
def definedWord : List Char := ['d', 'e', 'f', 'i', 'n', 'e', 'd']

/-- The piece is a blank. -/
def isGap (p : List Char) : Bool := p.all isBlank

/-- The piece is a word that starts like an identifier. -/
def isName : List Char → Bool
  | [] => false
  | c :: cs => isIdentStart c && cs.all isWord

/-- The name that pieces begin with, and the pieces after it. -/
def nameOf? : List (List Char) → Option (List Char × List (List Char))
  | [] => none
  | p :: ps => if isName p then some (p, ps) else none

/-- The name that the operator is about, bare or in parentheses, and the pieces after it. -/
def operandOf? (ps : List (List Char)) : Option (List Char × List (List Char)) :=
  match ps.dropWhile isGap with
  | ['('] :: inside =>
    match nameOf? (inside.dropWhile isGap) with
    | some (name, rest) =>
      match rest.dropWhile isGap with
      | [')'] :: rest => some (name, rest)
      | _ => none
    | none => none
  | start => nameOf? start

theorem pieces_word {c : Char} {cs : List Char} (h : isWord c = true) :
    pieces (c :: cs) = (c :: cs.takeWhile isWord) :: pieces (cs.dropWhile isWord) := by
  rw [pieces, if_pos h]

theorem pieces_mark {c : Char} {cs : List Char} (h : isWord c = false) :
    pieces (c :: cs) = [c] :: pieces cs := by
  rw [pieces, h, if_neg Bool.false_ne_true]

/-- The pieces of a text make up the text. -/
theorem flatten_pieces (cs : List Char) : (pieces cs).flatten = cs := by
  fun_induction pieces cs with
  | case1 => rfl
  | case2 c cs word ih => rw [List.flatten_cons, ih, List.cons_append,
      List.takeWhile_append_dropWhile]
  | case3 c cs mark ih => rw [List.flatten_cons, ih, List.singleton_append]

theorem pieces_dropWhile_isBlank (cs : List Char) :
    pieces (cs.dropWhile isBlank) = (pieces cs).dropWhile isGap := by
  induction cs with
  | nil => rw [List.dropWhile_nil, pieces, List.dropWhile_nil]
  | cons c cs ih =>
    by_cases blank : isBlank c = true
    · have gap : isGap [c] = true := by rw [isGap, List.all_cons, blank]; rfl
      rw [pieces_mark (Source.isWord_of_isBlank blank), List.dropWhile_cons_of_pos blank,
        List.dropWhile_cons_of_pos gap, ih]
    · have apart (rest : List Char) : ¬ isGap (c :: rest) = true := by
        rw [isGap, List.all_cons, Bool.and_eq_true]
        exact fun h => blank h.1
      rw [List.dropWhile_cons_of_neg blank]
      cases word : isWord c with
      | true => rw [pieces_word word, List.dropWhile_cons_of_neg (apart _)]
      | false => rw [pieces_mark word, List.dropWhile_cons_of_neg (apart _)]

theorem isWord_of_isIdentStart {c : Char} (h : isIdentStart c = true) : isWord c = true :=
  Text.isWord_of_part (Text.isIdentPart_of_isIdentStart h)

/-- Pieces begin with the name that the text begins with. -/
theorem nameOf?_pieces (cs : List Char) :
    nameOf? (pieces cs) = (name? cs).map fun found => (found.1, pieces found.2) := by
  cases cs with
  | nil => rw [pieces]; rfl
  | cons c cs =>
    rw [name?]
    by_cases start : isIdentStart c = true
    · have name : isName (c :: cs.takeWhile isWord) = true := by
        rw [isName, start, Bool.true_and]
        exact List.all_takeWhile
      rw [pieces_word (isWord_of_isIdentStart start), nameOf?, if_pos name, if_pos start]
      rfl
    · have other (rest : List Char) : ¬ isName (c :: rest) = true := by
        rw [isName, Bool.and_eq_true]
        exact fun h => start h.1
      rw [if_neg start]
      cases word : isWord c with
      | true => rw [pieces_word word, nameOf?, if_neg (other _)]; rfl
      | false => rw [pieces_mark word, nameOf?, if_neg (other _)]; rfl

/-- No piece but the parenthesis itself is a parenthesis. -/
theorem pieces_ne_mark {c d : Char} {cs : List Char} (differ : c ≠ d)
    (rest : List (List Char)) : pieces (c :: cs) ≠ [d] :: rest := by
  intro same
  cases word : isWord c with
  | true =>
    rw [pieces_word word] at same
    exact differ (List.cons.inj (List.cons.inj same).1).1
  | false =>
    rw [pieces_mark word] at same
    exact differ (List.cons.inj (List.cons.inj same).1).1

/-- The operand is found in the text as it is found in its pieces. -/
theorem operandOf?_pieces (cs : List Char) :
    operandOf? (pieces cs) = (operand? cs).map fun found => (found.1, pieces found.2) := by
  rw [operandOf?, operand?, ← pieces_dropWhile_isBlank]
  cases cs.dropWhile isBlank with
  | nil => rw [pieces]; rfl
  | cons c inside =>
    by_cases parenthesis : c = '('
    · subst parenthesis
      rw [pieces_mark (by decide)]
      simp only
      rw [← pieces_dropWhile_isBlank, nameOf?_pieces]
      cases name? (inside.dropWhile isBlank) with
      | none => rfl
      | some found =>
        obtain ⟨name, rest⟩ := found
        simp only [Option.map_some]
        rw [← pieces_dropWhile_isBlank]
        cases rest.dropWhile isBlank with
        | nil => rw [pieces]; rfl
        | cons c rest =>
          by_cases parenthesis : c = ')'
          · subst parenthesis
            rw [pieces_mark (by decide)]
            rfl
          · split
            next same => exact absurd same (pieces_ne_mark parenthesis _)
            next =>
              split
              next same => exact absurd (List.cons.inj same).1 parenthesis
              next => rfl
    · split
      next same => exact absurd same (pieces_ne_mark parenthesis _)
      next =>
        split
        next same => exact absurd (List.cons.inj same).1 parenthesis
        next => exact nameOf?_pieces _

/-! ## Items of a condition -/

/-- The pieces are those of an operator `defined` about a name. -/
inductive IsOperator : List (List Char) → List Char → Prop where
  | bare {gap : List (List Char)} {name : List Char} (blank : ∀ p ∈ gap, isGap p = true)
      (named : isName name = true) : IsOperator (definedWord :: (gap ++ [name])) name
  | enclosed {gap before after : List (List Char)} {name : List Char}
      (blank : ∀ p ∈ gap, isGap p = true) (front : ∀ p ∈ before, isGap p = true)
      (named : isName name = true) (back : ∀ p ∈ after, isGap p = true) :
      IsOperator (definedWord :: (gap ++ ['('] :: (before ++ name :: (after ++ [[')']])))) name

theorem nameOf?_eq_some {ps rest : List (List Char)} {name : List Char}
    (h : nameOf? ps = some (name, rest)) : ps = name :: rest ∧ isName name = true := by
  cases ps with
  | nil => cases h
  | cons p ps =>
    rw [nameOf?] at h
    split at h
    next named =>
      cases h
      exact ⟨rfl, named⟩
    next => cases h

/-- What is found after the word `defined` makes it an operator. -/
theorem exists_of_operandOf? {ps rest : List (List Char)} {name : List Char}
    (h : operandOf? ps = some (name, rest)) :
    ∃ taken, ps = taken ++ rest ∧ taken ≠ [] ∧ IsOperator (definedWord :: taken) name := by
  have gaps (l : List (List Char)) : ∀ p ∈ l.takeWhile isGap, isGap p = true :=
    fun p mem => List.all_eq_true.mp List.all_takeWhile p mem
  have whole {l rest : List (List Char)} (h : l.dropWhile isGap = rest) :
      l.takeWhile isGap ++ rest = l := h ▸ List.takeWhile_append_dropWhile
  unfold operandOf? at h
  split at h
  next inside opened =>
    split at h
    next name' more found =>
      obtain ⟨start, named⟩ := nameOf?_eq_some found
      split at h
      next after closed =>
        cases h
        refine ⟨ps.takeWhile isGap ++ ['('] :: (inside.takeWhile isGap ++ name ::
          (more.takeWhile isGap ++ [[')']])), ?_, by simp, .enclosed (gaps _) (gaps _) named
          (gaps _)⟩
        conv_lhs => rw [← whole opened, ← whole start, ← whole closed]
        simp
      next => cases h
    next => cases h
  next =>
    obtain ⟨start, named⟩ := nameOf?_eq_some h
    refine ⟨ps.takeWhile isGap ++ [name], ?_, by simp, .bare (gaps _) named⟩
    conv_lhs => rw [← whole start]
    simp

theorem length_operandOf?_lt {ps rest : List (List Char)} {name : List Char}
    (h : operandOf? ps = some (name, rest)) : rest.length < ps.length := by
  obtain ⟨taken, rfl, nonempty, -⟩ := exists_of_operandOf? h
  rw [List.length_append]
  have some := List.length_pos_of_ne_nil nonempty
  omega

/-- An operator `defined`, with its pieces and the name that it is about, or a piece that belongs
to none. -/
inductive Item where
  | operator (raw : List (List Char)) (name : List Char)
  | piece (p : List Char)

/-- The items that pieces make up: the word `defined` is an operator where an operand follows. -/
def items : List (List Char) → List Item
  | [] => []
  | p :: ps =>
    if p = definedWord then
      match _h : operandOf? ps with
      | some (name, rest) =>
        .operator (p :: ps.take (ps.length - rest.length)) name :: items rest
      | none => .piece p :: items ps
    else .piece p :: items ps
termination_by ps => ps.length
decreasing_by
  · exact Nat.lt_succ_of_lt (length_operandOf?_lt _h)
  · simp
  · simp

/-- One for a defined name, zero for any other. -/
def bit (env : Environment) (name : List Char) : Char :=
  if env.isDefined (String.ofList name) then '1' else '0'

/-- The name that stands glued to the word `defined`, which makes both one word. -/
def glued? (p : List Char) : Option (List Char) := (after? definedWord p).filter isName

namespace Item

/-- The text of an item. -/
def source : Item → List Char
  | operator raw _ => raw.flatten
  | piece p => p

/-- What an item is replaced by where operators alone are replaced. -/
def value (env : Environment) : Item → List Char
  | operator _ name => [bit env name]
  | piece p => p

/-- What an item is replaced by: an operator, and the word `defined` with a name glued to it, by
one or zero. -/
def expansion (env : Environment) : Item → List Char
  | operator _ name => [bit env name]
  | piece p =>
    match glued? p with
    | some name => [bit env name]
    | none => p

end Item

theorem items_operator {ps rest : List (List Char)} {name : List Char}
    (h : operandOf? ps = some (name, rest)) : ∃ taken, ps = taken ++ rest ∧
      IsOperator (definedWord :: taken) name ∧
      items (definedWord :: ps) = .operator (definedWord :: taken) name :: items rest := by
  obtain ⟨taken, rfl, -, operator⟩ := exists_of_operandOf? h
  refine ⟨taken, rfl, operator, ?_⟩
  rw [items, if_pos rfl]
  split
  next found =>
    rw [h] at found
    cases found
    rw [List.length_append, Nat.add_sub_cancel_right, List.take_left]
  next found => rw [h] at found; cases found

theorem items_plain {p : List Char} {ps : List (List Char)}
    (h : p = definedWord → operandOf? ps = none) : items (p :: ps) = .piece p :: items ps := by
  rw [items]
  split
  next same =>
    split
    next found => rw [h same] at found; cases found
    next => rfl
  next => rfl

/-- Items make up the pieces, and what is called an operator is one. -/
theorem items_spec (ps : List (List Char)) :
    (items ps).flatMap Item.source = ps.flatten ∧
      ∀ raw name, .operator raw name ∈ items ps → IsOperator raw name := by
  induction h : ps.length using Nat.strongRecOn generalizing ps with
  | ind n ih =>
    cases ps with
    | nil => rw [items]; exact ⟨rfl, nofun⟩
    | cons p ps =>
      by_cases operator : p = definedWord ∧ (operandOf? ps).isSome
      · obtain ⟨rfl, found⟩ := operator
        obtain ⟨⟨name, rest⟩, found⟩ := Option.isSome_iff_exists.mp found
        obtain ⟨taken, rfl, operator, read⟩ := items_operator found
        obtain ⟨text, operators⟩ := ih rest.length
          (h ▸ Nat.lt_succ_of_lt (length_operandOf?_lt found)) rest rfl
        rw [read]
        constructor
        · rw [List.flatMap_cons, text, Item.source, ← List.flatten_append, List.cons_append]
        · intro raw name' mem
          rcases List.mem_cons.mp mem with same | mem
          · cases same
            exact operator
          · exact operators raw name' mem
      · have plain : p = definedWord → operandOf? ps = none := fun same =>
          Option.not_isSome_iff_eq_none.mp fun found => operator ⟨same, found⟩
        obtain ⟨text, operators⟩ := ih ps.length (h ▸ Nat.lt_succ_self _) ps rfl
        rw [items_plain plain]
        constructor
        · rw [List.flatMap_cons, text, Item.source, List.flatten_cons]
        · intro raw name' mem
          rcases List.mem_cons.mp mem with same | mem
          · cases same
          · exact operators raw name' mem

/-! ## What is replaced -/

section Expansion

variable {c : Char} {cs w rest : List Char}

/-- What stands before a text that does not go on with a word is searched apart from it. -/
theorem after?_append_of_stop {start : List Char} (apart : ∀ d ∈ rest.head?, d ∉ start) :
    after? start (w ++ rest) = (after? start w).map (· ++ rest) := by
  rw [after?, after?, isPrefixOf_append apart]
  split
  next starts =>
    rw [List.drop_append_of_le_length (List.isPrefixOf_iff_prefix.mp starts).length_le]
    rfl
  next => rfl

theorem not_mem_definedWord (stops : ∀ d ∈ rest.head?, isWord d = false) :
    ∀ d ∈ rest.head?, d ∉ definedWord := by
  have words : ∀ d ∈ definedWord, isWord d = true := List.all_iff_forall_prop.mp (by decide)
  intro d hd mem
  exact absurd (words d mem) (by rw [stops d hd]; decide)

theorem operator?_eq (cs : List Char) :
    operator? cs = (after? definedWord cs).bind operand? := by
  have spelling : "defined".toList = definedWord := by decide
  rw [operator?, spelling]

/-- No operator begins with a character that is in no word. -/
theorem operator?_mark (mark : isWord c = false) : operator? (c :: cs) = none := by
  have stops : ∀ d ∈ (c :: cs).head?, isWord d = false := by
    rintro _ ⟨⟩
    exact mark
  have apart := after?_append_of_stop (w := []) (not_mem_definedWord stops)
  rw [operator?_eq]
  exact congrArg (·.bind operand?) apart

/-- A word is a name as a whole or begins with none. -/
theorem name?_word (hw : ∀ d ∈ w, isWord d = true) (stops : ∀ d ∈ rest.head?, isWord d = false) :
    name? (c :: (w ++ rest)) =
      (Option.filter isName (some (c :: w))).map fun name => (name, rest) := by
  have named : isName (c :: w) = isIdentStart c := by
    rw [isName, List.all_eq_true.mpr hw, Bool.and_true]
  rw [name?, takeWhile_run hw stops, dropWhile_run hw stops, Option.filter_some, named]
  split <;> rfl

/-- A whole word begins an operator if it is `defined` before an operand, or `defined` with a name
glued to it. -/
theorem operator?_word (hw : ∀ d ∈ w, isWord d = true) (stops : ∀ d ∈ rest.head?, isWord d = false) :
    operator? (w ++ rest) =
      if w = definedWord then operand? rest else (glued? w).map fun name => (name, rest) := by
  rw [operator?_eq, after?_append_of_stop (not_mem_definedWord stops), glued?]
  cases found : after? definedWord w with
  | none =>
    rw [if_neg]
    · rfl
    · rintro rfl
      have itself : after? definedWord definedWord = some [] := by decide
      rw [itself] at found
      cases found
  | some more =>
    obtain rfl := after?_eq_some_iff.mp found
    cases more with
    | nil => rw [List.append_nil, if_pos rfl]; rfl
    | cons m ms =>
      have word : isWord m = true := hw m (by simp)
      have inside : ∀ d ∈ ms, isWord d = true := fun d hd => hw d (by simp [hd])
      rw [if_neg (by simp), Option.map_some, Option.bind_some, List.cons_append, operand?,
        List.dropWhile_cons_of_neg]
      · split
        next same =>
          obtain ⟨rfl, -⟩ := List.cons.inj same
          cases word
        next => exact name?_word inside stops
      · intro blank
        rw [Source.isWord_of_isBlank blank] at word
        cases word

theorem expandFrom_of_none (env : Environment) (inWord : Bool) (h : operator? (c :: cs) = none) :
    expandFrom env inWord (c :: cs) = c :: expandFrom env (isWord c) cs := by
  rw [expandFrom]
  split
  next found => rw [h] at found; cases found
  next => rfl

theorem expandFrom_of_some (env : Environment) {name : List Char}
    (h : operator? (c :: cs) = some (name, rest)) :
    expandFrom env false (c :: cs) = bit env name :: expandFrom env false rest := by
  rw [expandFrom]
  split
  next found =>
    rw [h] at found
    cases found
    rfl
  next found => rw [h] at found; cases found

/-- Inside of a word nothing is replaced. -/
theorem expandFrom_inWord (env : Environment) (hw : ∀ d ∈ w, isWord d = true)
    (stops : ∀ d ∈ rest.head?, isWord d = false) :
    expandFrom env true (w ++ rest) = w ++ expandFrom env false rest := by
  induction w with
  | nil =>
    cases rest with
    | nil => rw [List.append_nil, expandFrom, expandFrom]; rfl
    | cons c rest =>
      have none : operator? (c :: rest) = none := operator?_mark (stops c rfl)
      rw [List.nil_append, List.nil_append, expandFrom_of_none env true none,
        expandFrom_of_none env false none]
  | cons c w ih =>
    obtain ⟨word, hw⟩ := List.forall_mem_cons.mp hw
    rw [List.cons_append, expandFrom]
    split
    next => rw [if_pos rfl, ih hw]; rfl
    next => rw [word, ih hw]; rfl

/-- A whole word is kept, or replaced with what is read along with it. -/
theorem expandFrom_word (env : Environment) (hw : ∀ d ∈ c :: w, isWord d = true)
    (stops : ∀ d ∈ rest.head?, isWord d = false) :
    expandFrom env false (c :: w ++ rest) =
      match operator? (c :: w ++ rest) with
      | some (name, after) => bit env name :: expandFrom env false after
      | none => c :: w ++ expandFrom env false rest := by
  obtain ⟨word, inside⟩ := List.forall_mem_cons.mp hw
  cases found : operator? (c :: w ++ rest) with
  | some operator => exact expandFrom_of_some env found
  | none =>
    rw [List.cons_append] at found ⊢
    rw [expandFrom_of_none env false found, word, expandFrom_inWord env inside stops]
    rfl

theorem glued?_definedWord : glued? definedWord = none := by decide

theorem glued?_single (c : Char) : glued? [c] = none := by
  simp [glued?, after?, definedWord, List.isPrefixOf]

/-- A whole word is expanded with the item that it begins, if what follows is expanded item by
item. -/
theorem expandFrom_word_items (env : Environment) (hw : ∀ d ∈ c :: w, isWord d = true)
    (stops : ∀ d ∈ rest.head?, isWord d = false)
    (further : ∀ l : List Char, l.length ≤ rest.length →
      expandFrom env false l = (items (pieces l)).flatMap (Item.expansion env)) :
    expandFrom env false (c :: w ++ rest) =
      (items ((c :: w) :: pieces rest)).flatMap (Item.expansion env) := by
  rw [expandFrom_word env hw stops, operator?_word hw stops]
  by_cases itself : c :: w = definedWord
  · rw [if_pos itself, itself]
    have same := operandOf?_pieces rest
    cases found : operand? rest with
    | none =>
      rw [found] at same
      rw [items_plain fun _ => same, List.flatMap_cons, Item.expansion, glued?_definedWord,
        further rest (Nat.le_refl _)]
    | some operand =>
      obtain ⟨name, after⟩ := operand
      rw [found] at same
      obtain ⟨taken, -, -, items⟩ := items_operator same
      dsimp only
      rw [items, List.flatMap_cons, Item.expansion,
        further after (Nat.le_of_lt (length_operand?_lt found))]
      rfl
  · rw [if_neg itself, items_plain fun same => absurd same itself, List.flatMap_cons,
      Item.expansion, ← further rest (Nat.le_refl _)]
    cases glued? (c :: w) with
    | none => rfl
    | some name => rfl

/-- A condition is expanded item by item. -/
theorem expandFrom_items (env : Environment) (cs : List Char) :
    expandFrom env false cs = (items (pieces cs)).flatMap (Item.expansion env) := by
  induction h : cs.length using Nat.strongRecOn generalizing cs with
  | ind n ih =>
    have shorter {l : List Char} (less : l.length < n) :
        expandFrom env false l = (items (pieces l)).flatMap (Item.expansion env) :=
      ih l.length less l rfl
    cases cs with
    | nil => rw [expandFrom, pieces, items]; rfl
    | cons c cs =>
      rw [List.length_cons] at h
      cases word : isWord c with
      | false =>
        have differ : [c] ≠ definedWord := by simp [definedWord]
        rw [expandFrom_of_none env false (operator?_mark word), word, shorter (by omega),
          pieces_mark word, items_plain fun same => absurd same differ, List.flatMap_cons,
          Item.expansion, glued?_single]
        rfl
      | true =>
        have hw : ∀ d ∈ c :: cs.takeWhile isWord, isWord d = true :=
          List.forall_mem_cons.mpr
            ⟨word, fun d hd => List.all_eq_true.mp List.all_takeWhile d hd⟩
        have whole : c :: cs.takeWhile isWord ++ cs.dropWhile isWord = c :: cs := by
          rw [List.cons_append, List.takeWhile_append_dropWhile]
        have less := length_dropWhile_le isWord cs
        have read := expandFrom_word_items env hw (head_dropWhile isWord cs)
          fun l le => shorter (by omega)
        rwa [whole, ← pieces_word word] at read

end Expansion

/-! ## The operator alone -/

/-- One and zero do not begin the word `defined`, so what is replaced shows. -/
theorem bit_ne (env : Environment) (name more rest rest' : List Char) :
    bit env name :: rest ≠ definedWord ++ more ++ rest' := by
  unfold bit
  split <;> simp [definedWord]

theorem exists_of_glued? {p name : List Char} (h : glued? p = some name) :
    p = definedWord ++ name := by
  rw [glued?, Option.filter_eq_some_iff] at h
  exact after?_eq_some_iff.mp h.1

/-- Items are replaced as operators alone are exactly if no piece is the word `defined` with a name
glued to it. -/
theorem expansion_eq_value_iff (env : Environment) (is : List Item) :
    is.flatMap (Item.expansion env) = is.flatMap (Item.value env) ↔
      ∀ w, .piece w ∈ is → glued? w = none := by
  induction is with
  | nil => exact ⟨fun _ => nofun, fun _ => rfl⟩
  | cons i is ih =>
    rw [List.flatMap_cons, List.flatMap_cons]
    cases i with
    | operator raw name =>
      rw [Item.expansion, Item.value, List.append_cancel_left_eq, ih]
      simp
    | piece p =>
      rw [Item.expansion, Item.value]
      cases glued : glued? p with
      | none =>
        rw [List.append_cancel_left_eq, ih]
        simp [glued]
      | some name =>
        constructor
        · intro same
          rw [exists_of_glued? glued] at same
          exact absurd same (bit_ne env name name _ _)
        · intro h
          have none := h p List.mem_cons_self
          rw [glued] at none
          cases none

/-- Without the word `defined` no piece belongs to an operator. -/
theorem items_of_not_mem {ps : List (List Char)} (h : definedWord ∉ ps) :
    items ps = ps.map Item.piece := by
  induction ps with
  | nil => rw [items]; rfl
  | cons p ps ih =>
    obtain ⟨differ, h⟩ := List.ne_and_not_mem_of_not_mem_cons h
    rw [items_plain fun same => absurd same.symm differ, ih h]
    rfl

/-- A condition is made of operators `defined` and other pieces, and is expanded item by item:
operators are replaced, and so is a word that is `defined` with a name glued to it. Nothing else
is replaced than operators exactly if there is no such word. -/
theorem expand_items (env : Environment) (text : String) :
    (items (pieces text.toList)).flatMap Item.source = text.toList ∧
    (∀ raw name, .operator raw name ∈ items (pieces text.toList) → IsOperator raw name) ∧
    (expand env text).toList = (items (pieces text.toList)).flatMap (Item.expansion env) ∧
    ((expand env text).toList = (items (pieces text.toList)).flatMap (Item.value env) ↔
      ∀ w, .piece w ∈ items (pieces text.toList) → glued? w = none) ∧
    (definedWord ∉ pieces text.toList →
      (expand env text = text ↔ ∀ w ∈ pieces text.toList, glued? w = none)) := by
  obtain ⟨source, operators⟩ := items_spec (pieces text.toList)
  have expanded : (expand env text).toList =
      (items (pieces text.toList)).flatMap (Item.expansion env) := by
    rw [expand, String.toList_ofList, expandFrom_items]
  have alone : (expand env text).toList = (items (pieces text.toList)).flatMap (Item.value env) ↔
      ∀ w, .piece w ∈ items (pieces text.toList) → glued? w = none := by
    rw [expanded, expansion_eq_value_iff]
  refine ⟨source.trans (flatten_pieces _), operators, expanded, alone, fun h => ?_⟩
  have plain := items_of_not_mem h
  have kept : (items (pieces text.toList)).flatMap (Item.value env) = text.toList := by
    conv_rhs => rw [← flatten_pieces text.toList]
    rw [plain, List.flatMap_map, List.flatMap_def]
    exact congrArg List.flatten (List.map_id _)
  rw [← String.toList_inj]
  conv_lhs => rhs; rw [← kept]
  rw [alone, plain]
  simp

/-- Names that do not begin with the word are left as they are. -/
theorem expand_items_undefined : expand [] "undefined || A" = "undefined || A" :=
  ((expand_items [] "undefined || A").2.2.2.2 (by decide +kernel)).mpr (by decide +kernel)

/-- A name that begins with the word `defined` holds no operator and is replaced. -/
theorem expand_defined_x : isIdentifier "defined_x".toList = true ∧
    pieces "defined_x".toList = ["defined_x".toList] ∧
    (items (pieces "defined_x".toList)).flatMap (Item.value []) = "defined_x".toList ∧
    expand [] "defined_x" = "0" :=
  ⟨by decide, by decide +kernel, by decide +kernel, by decide +kernel⟩

end ConstLookup.Condition
