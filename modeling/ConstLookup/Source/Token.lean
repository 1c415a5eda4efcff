/-!
  Tokens of C source text. A preprocessor directive is one token. Every token keeps the text
  that it was read from and the blanks and comments before it, so the text of any run of tokens
  can be given back.
-/

namespace ConstLookup.Source

/-- A place in a text: lines count from one, columns count bytes from zero. -/
structure Position where
  line : Nat := 1
  column : Nat := 0
  deriving DecidableEq, Repr

/-- The place after a character. -/
def Position.after (p : Position) (c : Char) : Position :=
  if c = '\n' then { line := p.line + 1, column := 0 }
  else { p with column := p.column + c.utf8Size }

/-- The place after a text. -/
def Position.afterAll (p : Position) (cs : List Char) : Position := cs.foldl Position.after p

/-- What decides whether the branch of a conditional is taken. -/
inductive Test where
  /-- The value of a condition. -/
  | condition (text : Option String)
  /-- A macro is defined. -/
  | defined (name : Option String)
  /-- A macro is not defined. -/
  | undefined (name : Option String)
  deriving DecidableEq, Repr

/-- A preprocessor directive. -/
inductive Directive where
  /-- The definition of an object-like macro, with the raw text of its body. -/
  | define (name : String) (value : Option String)
  /-- The definition of a function-like macro. -/
  | defineFunction (name : String)
  /-- The start of a conditional block. -/
  | opens (test : Test)
  /-- The start of a further branch with its own test. -/
  | elseOpens (test : Test)
  /-- The start of the last branch. -/
  | otherwise
  /-- The end of a conditional block. -/
  | endif
  /-- Any other directive: its sign and word as written, and its raw argument. -/
  | call (word : String) (argument : Option String)
  /-- A directive without effect on constants. -/
  | inert
  deriving DecidableEq, Repr

/-- The kind of a token. -/
inductive TokenKind where
  | word
  | number
  /-- A string or character literal. -/
  | quoted
  | mark
  | directive (d : Directive)
  deriving DecidableEq, Repr

/-- One token. -/
structure Token where
  kind : TokenKind
  text : List Char
  /-- The blanks and comments before the token. -/
  gap : List Char
  position : Position
  /-- The token is complete. -/
  sound : Bool := true
  deriving DecidableEq, Repr

namespace Token

/-- The token is the mark spelled so. -/
def isMark (t : Token) (spelling : String) : Bool :=
  t.kind = .mark && t.text = spelling.toList

/-- The token is a word. -/
def isWord (t : Token) : Bool := t.kind = .word

/-- The token is the word spelled so. -/
def isWordOf (t : Token) (spelling : String) : Bool :=
  t.kind = .word && t.text = spelling.toList

/-- The spelling of a token. -/
def spelling (t : Token) : String := String.ofList t.text

end Token

/-- The text of a run of tokens, without what stands before the first of them. -/
def textOf : List Token → String
  | [] => ""
  | t :: ts => String.ofList (t.text ++ ts.flatMap fun u => u.gap ++ u.text)

end ConstLookup.Source
