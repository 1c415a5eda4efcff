import ConstLookup.Yaml.Token

/-!
  The value that a YAML text holds. An alias stands for the value that its anchor names; inside
  that value itself it stands for nothing usable.
-/

namespace ConstLookup.Yaml

/-- A value. -/
inductive Node where
  /-- Text, with its tag if it has one. -/
  | scalar (text : String) (plain : Bool) (tag : Option String)
  | sequence (items : List Node)
  | mapping (pairs : List (Node × Node))
  /-- The alias of a value inside that value. -/
  | unfinished

namespace Node

/-- A value that is left out. -/
def absent : Node := .scalar "" true none

/-- The values that anchors name, last one first. -/
abbrev Anchors := List (String × Node)

/-- A place between tokens. -/
structure State where
  tokens : List Token
  anchors : Anchors := []
  /-- Handles of tags that directives declare. -/
  handles : List String := []

namespace State

/-- The next token. -/
def peek? (s : State) : Option Token := s.tokens.head?

/-- The place after the next token. -/
def next (s : State) : State := { s with tokens := s.tokens.tail }

/-- The next token is one of those given. -/
def isAt (s : State) (ts : List Token) : Bool := s.peek?.any ts.contains

/-- Let an anchor name a value. -/
def name (s : State) (anchor : Option String) (value : Node) : State :=
  match anchor with
  | some a => { s with anchors := (a, value) :: s.anchors }
  | none => s

end State

/-- The namespace of the tags with a short handle of two exclamation marks. -/
def coreTags : String := "tag:yaml.org,2002:"

/-- The full form of a tag whose handle is known. -/
def fullTag (s : State) (handle rest : String) : Option String :=
  if handle = "" then some rest
  else if handle = "!" then some ("!" ++ rest)
  else if s.handles.contains handle then some rest
  else if handle = "!!" then some (coreTags ++ rest)
  else none

/-- What stands before a value: an anchor and a tag, in any order. -/
def properties (anchor tag : Option String) : Nat → State →
    Option (Option String × Option String × State)
  | 0, s => some (anchor, tag, s)
  | steps + 1, s =>
    match s.peek?, anchor, tag with
    | some (.anchor name), none, _ => properties (some name) tag steps s.next
    | some (.tag handle rest), _, none => do
      let full ← fullTag s handle rest
      properties anchor (some full) steps s.next
    | _, _, _ => some (anchor, tag, s)

/-- How values are set apart where a value may be left out. -/
def separators : List Token := [.blockEntry, .key, .value, .blockEnd]

mutual

/-- Read a value. In a block, collections may be indented; `dashed` lets items begin at once. -/
def value (inBlock dashed : Bool) : Nat → State → Option (Node × State)
  | 0, _ => none
  | fuel + 1, s =>
    match s.peek? with
    | some (.reference name) => do
      let (_, node) ← s.anchors.find? (·.1 = name)
      some (node, s.next)
    | _ => do
      let (anchor, tag, s) ← properties none none 2 s
      let opened := s.name anchor .unfinished
      match s.peek? with
      | some (.scalar text plain) =>
        let node := Node.scalar text plain tag
        some (node, s.next.name anchor node)
      | some .flowSequenceStart => do
        let (items, s) ← flowItems true fuel opened.next
        some (.sequence items, s.name anchor (.sequence items))
      | some .flowMappingStart => do
        let (pairs, s) ← flowPairs true fuel opened.next
        some (.mapping pairs, s.name anchor (.mapping pairs))
      | other =>
        if inBlock && other = some .blockSequenceStart then do
          let (items, s) ← blockItems fuel opened.next
          some (.sequence items, s.name anchor (.sequence items))
        else if inBlock && other = some .blockMappingStart then do
          let (pairs, s) ← blockPairs fuel opened.next
          some (.mapping pairs, s.name anchor (.mapping pairs))
        else if dashed && other = some .blockEntry then do
          let (items, s) ← dashedItems fuel opened
          some (.sequence items, s.name anchor (.sequence items))
        else if anchor.isSome || tag.isSome then
          let node := Node.scalar "" true tag
          some (node, s.name anchor node)
        else none

/-- Read a value, unless one of the given tokens comes next. -/
def valueUnless (stops : List Token) (inBlock dashed : Bool) : Nat → State → Option (Node × State)
  | 0, _ => none
  | fuel + 1, s => if s.isAt stops then some (absent, s) else value inBlock dashed fuel s

/-- Read the items of an indented sequence up to its end. -/
def blockItems : Nat → State → Option (List Node × State)
  | 0, _ => none
  | fuel + 1, s =>
    match s.peek? with
    | some .blockEntry => do
      let (item, s) ← valueUnless [.blockEntry, .blockEnd] true false fuel s.next
      let (items, s) ← blockItems fuel s
      some (item :: items, s)
    | some .blockEnd => some ([], s.next)
    | _ => none

/-- Read items that are not indented further than the key before them. -/
def dashedItems : Nat → State → Option (List Node × State)
  | 0, _ => none
  | fuel + 1, s =>
    match s.peek? with
    | some .blockEntry => do
      let (item, s) ← valueUnless separators true false fuel s.next
      let (items, s) ← dashedItems fuel s
      some (item :: items, s)
    | _ => some ([], s)

/-- Read the pairs of an indented mapping up to its end. -/
def blockPairs : Nat → State → Option (List (Node × Node) × State)
  | 0, _ => none
  | fuel + 1, s =>
    match s.peek? with
    | some .key => do
      let (key, s) ← valueUnless [.key, .value, .blockEnd] true true fuel s.next
      let (held, s) ←
        if s.peek? = some .value then
          valueUnless [.key, .value, .blockEnd] true true fuel s.next
        else some (absent, s)
      let (pairs, s) ← blockPairs fuel s
      some ((key, held) :: pairs, s)
    | some .blockEnd => some ([], s.next)
    | _ => none

/-- Read the items of a sequence in brackets; a comma comes before every item but the first. -/
def flowItems (first : Bool) : Nat → State → Option (List Node × State)
  | 0, _ => none
  | fuel + 1, s =>
    if s.peek? = some .flowSequenceEnd then some ([], s.next)
    else if !first && s.peek? ≠ some .flowEntry then none
    else
      let s := if first then s else s.next
      if s.peek? = some .flowSequenceEnd then some ([], s.next)
      else do
        let (item, s) ← flowItem fuel s
        let (items, s) ← flowItems false fuel s
        some (item :: items, s)

/-- Read an item of a sequence in brackets, which may be a single pair. -/
def flowItem : Nat → State → Option (Node × State)
  | 0, _ => none
  | fuel + 1, s =>
    if s.peek? = some .key then do
      let stops := [Token.value, .flowEntry, .flowSequenceEnd]
      let (key, s) ← valueUnless stops false false fuel s.next
      let (held, s) ←
        if s.peek? = some .value then
          valueUnless [.flowEntry, .flowSequenceEnd] false false fuel s.next
        else some (absent, s)
      some (.mapping [(key, held)], s)
    else value false false fuel s

/-- Read the pairs of a mapping in brackets; a comma comes before every pair but the first. -/
def flowPairs (first : Bool) : Nat → State → Option (List (Node × Node) × State)
  | 0, _ => none
  | fuel + 1, s =>
    if s.peek? = some .flowMappingEnd then some ([], s.next)
    else if !first && s.peek? ≠ some .flowEntry then none
    else
      let s := if first then s else s.next
      if s.peek? = some .flowMappingEnd then some ([], s.next)
      else do
        let (pair, s) ← flowPair fuel s
        let (pairs, s) ← flowPairs false fuel s
        some (pair :: pairs, s)

/-- Read a pair of a mapping in brackets, whose value may be left out. -/
def flowPair : Nat → State → Option ((Node × Node) × State)
  | 0, _ => none
  | fuel + 1, s =>
    if s.peek? = some .key then do
      let stops := [Token.value, .flowEntry, .flowMappingEnd]
      let (key, s) ← valueUnless stops false false fuel s.next
      let (held, s) ←
        if s.peek? = some .value then
          valueUnless [.flowEntry, .flowMappingEnd] false false fuel s.next
        else some (absent, s)
      some ((key, held), s)
    else do
      let (key, s) ← value false false fuel s
      some ((key, absent), s)

end

/-! ## Documents -/

/-- The place after directives, with the tag handles that they declare, and whether there are
directives. -/
def directives (any : Bool) : List Token → List String → Bool × List Token × List String
  | .directive handle :: ts, handles => directives true ts (handle.toList ++ handles)
  | ts, handles => (any, ts, handles)

/-- Nothing stands after a document but its end. -/
def atEnd (tokens : List Token) : Bool := tokens.all (· = .documentEnd)

/-- The value of the only document; `none` within if the text holds none, and no answer if the
tokens form no document or more than one. -/
def ofTokens? (tokens : List Token) : Option (Option Node) :=
  let (announced, rest, handles) := directives false tokens []
  let (explicit, body) := match rest with
    | .documentStart :: body => (true, body)
    | body => (false, body)
  if announced && !explicit then none
  else if !explicit && body.isEmpty then some none
  else do
    let s : State := { tokens := body, handles := handles }
    let bare := match body with
      | [] => true
      | t :: _ => [Token.documentStart, .documentEnd].contains t
    let (node, s) ← if explicit && bare then some (absent, s)
      else value true false (4 * tokens.length + 8) s
    if atEnd s.tokens then some (some node) else none

end Node

/-- The value that a text holds; `none` within if it holds none, and no answer if the text is
broken. -/
def read? (text : String) : Option (Option Node) := do
  Node.ofTokens? (← tokens? text)

end ConstLookup.Yaml
