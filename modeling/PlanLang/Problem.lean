import PlanLang.Outline
import PlanLang.Token.Lexer

/-!
# Planning problems

A problem belongs to a planning domain. It names the objects that exist, describes the
initial state by literals, and states the goal.
-/

namespace PlanLang

/-- A planning problem. -/
structure Problem where
  name : String
  /-- the name of the domain -/
  domain : String
  requirements : Requirements
  objects : List Constant
  init : List Formula
  goal : Option Formula
deriving DecidableEq

namespace Section

/-- The objects that a section declares. -/
def declaredObjects : Section → List Constant
  | objects cs => cs
  | _ => []

/-- The literals of the initial state in a section. -/
def declaredInit : Section → List Formula
  | init fs => fs
  | _ => []

/-- The goal in a section. -/
def declaredGoal : Section → Option Formula
  | goal f => f
  | _ => none

end Section

namespace Problem

/-- The sections of a problem. -/
def layout : Layout where
  headings := [.requirements, .contents .objects, .contents .init, .contents .goal]
  unsupported := [":constraints", ":metric", ":length"]

/-- Reads the name of a problem, the name of its domain and its outline. -/
def outline : Reader (Token × Token × Outline) := do
  let name ← Outline.title "problem"
  Reader.opening
  let _ ← Reader.expectAfter (·.isKeyword ":domain") [":domain"]
  let domain ← Reader.expectKind .name
  Reader.closing
  return (name, domain, ← Outline.body layout)

/-- The problem with the given sections. -/
def ofSections (name domain : String) (requirements : Requirements) (ss : List Section) :
    Problem where
  name := name
  domain := domain
  requirements := requirements
  objects := ss.flatMap Section.declaredObjects
  init := ss.flatMap Section.declaredInit
  goal := ss.findSome? Section.declaredGoal

/-- A problem that declares no requirements relies on those of its domain, which are not
known; so no construct is held back. -/
def gate (o : Outline) : Gate :=
  match o.requirements with
  | none => .unlimited
  | some s => .declared s

/-- Reads a problem from tokens. -/
def ofTokens (defaultType : Option Ty) (tokens : List Token) :
    Except (List SyntaxError) Problem := do
  let ((name, domain, o), _) ← (outline (.start tokens)).2.mapError ([·])
  let ss ← o.read (gate o) defaultType
  return ofSections name.name domain.name o.available ss

/-- Reads a problem. An object that is declared without a type gets the type
`defaultType`. -/
def parse (defaultType : Option Ty) (source : String) : Except (List SyntaxError) Problem :=
  ofTokens defaultType (tokenize source)

/-- The source begins like the description of a problem. -/
def isProblem (source : String) : Bool :=
  Outline.isTitled "problem" (tokenize source)

end Problem

end PlanLang
