import PlanLang.Token

/-!
# The tokens of a source

A source is cut into its tokens from left to right, each as long as it can be. Blanks and
comments, which run from a semicolon to the end of the line, separate tokens and are left
out. Every source can be cut: a character that fits nowhere is a token of its own.
-/

namespace PlanLang

/-- Where the next character of a source stands. -/
structure Place where
  /-- the number of bytes read -/
  offset : Nat
  /-- the position of the next character -/
  position : Position
deriving DecidableEq, Repr

namespace Place

/-- The place of the first character. -/
def start : Place :=
  ⟨0, .start⟩

/-- The place after the character `c`: a line feed starts a line and any other character
takes one column. -/
def past (p : Place) (c : Char) : Place where
  offset := p.offset + c.utf8Size
  position :=
    if c = '\n' then ⟨p.position.line + 1, 1⟩ else ⟨p.position.line, p.position.column + 1⟩

/-- The place after the characters `cs`. -/
def pastAll (p : Place) (cs : List Char) : Place :=
  cs.foldl past p

end Place

namespace Lexer

/-- White space: spaces, tabs and the two characters that end lines. -/
def isBlank (c : Char) : Bool :=
  c = ' ' || c = '\t' || c = '\r' || c = '\n'

/-- The characters that continue a name: ASCII letters and digits, dashes and underscores. -/
def continuesName (c : Char) : Bool :=
  c.isAlphanum || c = '-' || c = '_'

/-- A name stands at the beginning of `cs`, that is, an ASCII letter does. -/
def startsName (cs : List Char) : Bool :=
  cs.head?.any Char.isAlpha

/-- The class of the token that starts with `c` when the characters `cs` follow, and the
characters of `cs` that belong to it. -/
def lexeme (c : Char) (cs : List Char) : TokenKind × List Char :=
  if c = '(' then (.opening, [])
  else if c = ')' then (.closing, [])
  else if c = '-' then (.dash, [])
  else if c = '=' then (.equals, [])
  else if c = '?' && startsName cs then (.var, cs.takeWhile continuesName)
  else if c = ':' && startsName cs then (.keyword, cs.takeWhile continuesName)
  else if c.isAlpha then (.name, cs.takeWhile continuesName)
  else (.invalid, [])

/-- The tokens of the characters `cs`, the first of which stands at `p`. -/
def tokens (p : Place) : List Char → List Token
  | [] => []
  | c :: cs =>
    if isBlank c then tokens (p.past c) cs
    else if c = ';' then
      let comment := cs.takeWhile (· != '\n')
      tokens (p.pastAll (c :: comment)) (cs.drop comment.length)
    else
      let (kind, tail) := lexeme c cs
      ⟨kind, String.ofList (c :: tail), p.offset, p.position⟩ ::
        tokens (p.pastAll (c :: tail)) (cs.drop tail.length)
termination_by cs => cs.length

end Lexer

/-- The tokens of a source, in order. -/
def tokenize (source : String) : List Token :=
  Lexer.tokens .start source.toList

end PlanLang
