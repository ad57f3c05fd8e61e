import PlanLang.Word

/-!
# Tokens

A token is one of the four signs `(`, `)`, `-` and `=`, a name, a variable such as `?x`, a
keyword such as `:action`, or a single character that starts none of these. A token carries
its text and where the text stands in the source.
-/

namespace PlanLang

/-- A place in a source, as a text editor counts: lines and columns start at one, and a column
is one character wide. -/
structure Position where
  line : Nat
  column : Nat
deriving DecidableEq, Repr

/-- The place of the first character of a source. -/
def Position.start : Position :=
  ⟨1, 1⟩

/-- The classes of tokens. -/
inductive TokenKind where
  /-- a character that belongs to no other token -/
  | invalid
  /-- an opening parenthesis -/
  | opening
  /-- a closing parenthesis -/
  | closing
  /-- the dash between the items of a list and their type -/
  | dash
  /-- the equality sign -/
  | equals
  /-- a name -/
  | name
  /-- a name after a question mark -/
  | var
  /-- a name after a colon -/
  | keyword
deriving DecidableEq, Repr

/-- The word for a class of tokens in messages; a sign stands for itself. -/
def TokenKind.label : TokenKind → String
  | .invalid => "invalid"
  | .opening => "("
  | .closing => ")"
  | .dash => "-"
  | .equals => "="
  | .name => "identifier"
  | .var => "variable"
  | .keyword => "keyword"

/-- A token: its class, the text it covers, the number of bytes in front of it and the
position of its first character. -/
structure Token where
  kind : TokenKind
  text : String
  offset : Nat
  position : Position
deriving DecidableEq, Repr

namespace Token

/-- The number of bytes of the source up to the end of the token. -/
def stop (t : Token) : Nat :=
  t.offset + t.text.utf8ByteSize

/-- The token is the name `word`, whatever the case of its letters. -/
def isName (t : Token) (word : String) : Bool :=
  t.kind = .name && sameWord t.text word

/-- The token is the keyword `word`, written with its colon, whatever the case of its
letters. -/
def isKeyword (t : Token) (word : String) : Bool :=
  t.kind = .keyword && sameWord t.text word

/-- The name that a token stands for: its text in lower case, without the question mark of a
variable. -/
def name (t : Token) : String :=
  if t.kind = .var then (String.ofList t.text.toList.tail).toLower else t.text.toLower

end Token

end PlanLang
