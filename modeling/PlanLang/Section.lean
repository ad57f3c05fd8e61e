import PlanLang.Reader.Draft
import PlanLang.Reader.Formula

/-!
# Sections

The contents of a description are divided into sections. Each kind of section has a keyword
and a form of its own, and is read by itself from the tokens that follow its keyword.
-/

namespace PlanLang

/-- The kinds of sections. -/
inductive SectionKind where
  | types
  | constants
  | predicates
  | action
  | objects
  | init
  | goal
deriving DecidableEq, Repr

/-- An action: its effect takes place when its precondition holds. -/
structure Action where
  name : String
  /-- where the name stands in the source -/
  position : Position
  parameters : List Variable
  precondition : Option Formula
  effect : Option Formula
deriving DecidableEq

/-- What a section declares. -/
inductive Section where
  | types (ds : List TypeDeclaration)
  | constants (cs : List Constant)
  | predicates (as : List Atom)
  | action (a : Action)
  | objects (cs : List Constant)
  | init (fs : List Formula)
  | goal (f : Option Formula)
deriving DecidableEq

namespace Reader

/-- The declaration of one predicate with its variables. -/
def predicate : Reader Unit := do
  let _ ← expect (·.kind = .opening) ["(", ")"]
  let t ← expectKind .name
  within (.part .predicate) <| within (.shape .atom) do
    named .predicate t
    variableList

/-- One literal of the initial state, which has no variables. -/
def initLiteral : Reader Unit := do
  let _ ← expect (·.kind = .opening) ["(", ")"]
  within (.part .initLiteral) do
    if ← found (·.isName "not") then
      negatedAtom groundTerm
    else
      atom groundTerm

/-- The part of an action that a keyword introduces, or nothing if another token is next. -/
def introducedBy (word : String) (r : Reader Unit) : Reader Unit := do
  if ← found (·.isKeyword word) then
    r
  else
    pure ()

/-- The name and the parts of an action. -/
def action : Reader Token := do
  let name ← expectKind .name
  let _ ← expectAfter (·.isKeyword ":parameters") [":parameters"]
  opening
  within (.part .parameters) variableList
  introducedBy ":precondition" (within (.part .precondition) (orEmpty goal))
  introducedBy ":effect" (within (.part .effect) (orEmpty effect))
  let _ ← expect (·.kind = .closing) [":precondition", ":effect", ")"]
  return name

end Reader

namespace SectionKind

/-- The reader of a section after its keyword. Its value finds what the section declares in
the draft that the report leads to. -/
def reader : SectionKind → Reader (Draft → Section)
  | types => do
    Reader.within (.part .types) (Reader.typedList .name .type (.part .subtypes))
    return fun d => .types d.types
  | constants => do
    Reader.within (.part .constants) Reader.constantList
    return fun d => .constants d.constants
  | predicates => do
    Reader.repeated Reader.predicate
    return fun d => .predicates d.predicates
  | action => do
    let name ← Reader.action
    return fun d =>
      .action ⟨name.name, name.position, d.parameters, d.precondition, d.effect⟩
  | objects => do
    Reader.within (.part .objects) Reader.constantList
    return fun d => .objects d.constants
  | init => do
    Reader.repeated Reader.initLiteral
    return fun d => .init d.init
  | goal => do
    Reader.within (.part .goal) do
      Reader.orEmpty Reader.goal
      Reader.closing
    return fun d => .goal d.goal

/-- Reads a section from the tokens after its keyword: what it declares, and the cursor
behind its closing parenthesis. -/
def read (k : SectionKind) (gate : Gate) (defaultType : Option Ty) (tokens : List Token) :
    Except SyntaxError (Section × Cursor) := do
  let (value, d, c) ← k.reader.draft gate defaultType tokens
  return (value d, c)

end SectionKind

end PlanLang
