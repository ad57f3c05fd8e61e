import PlanLang.Outline
import PlanLang.Token.Lexer

/-!
# Planning domains

A domain declares the types, the constants, the predicates and the actions of a family of
planning problems.
-/

namespace PlanLang

/-- A planning domain. -/
structure Domain where
  name : String
  requirements : Requirements
  types : List TypeDeclaration
  constants : List Constant
  predicates : List Atom
  actions : List Action
deriving DecidableEq

namespace Section

/-- The types that a section declares. -/
def declaredTypes : Section → List TypeDeclaration
  | types ds => ds
  | _ => []

/-- The constants that a section declares. -/
def declaredConstants : Section → List Constant
  | constants cs => cs
  | _ => []

/-- The predicates that a section declares. -/
def declaredPredicates : Section → List Atom
  | predicates as => as
  | _ => []

/-- The action that a section declares. -/
def declaredActions : Section → List Action
  | action a => [a]
  | _ => []

end Section

namespace Domain

/-- The sections of a domain. -/
def layout : Layout where
  headings :=
    [.requirements, .contents .types, .contents .constants, .contents .predicates,
      .contents .action]
  unsupported := [":functions", ":constraints", ":durative-action", ":derived"]

/-- Reads the name of a domain and its outline. -/
def outline : Reader (Token × Outline) := do
  let name ← Outline.title "domain"
  return (name, ← Outline.body layout)

/-- The domain with the given sections. -/
def ofSections (name : String) (requirements : Requirements) (ss : List Section) : Domain where
  name := name
  requirements := requirements
  types := ss.flatMap Section.declaredTypes
  constants := ss.flatMap Section.declaredConstants
  predicates := ss.flatMap Section.declaredPredicates
  actions := ss.flatMap Section.declaredActions

/-- Reads a domain from tokens. Every construct needs its requirement. -/
def ofTokens (defaultType : Option Ty) (tokens : List Token) :
    Except (List SyntaxError) Domain := do
  let ((name, o), _) ← (outline (.start tokens)).2.mapError ([·])
  let ss ← o.read (.declared o.available) defaultType
  return ofSections name.name o.available ss

/-- Reads a domain. What is declared without a type gets the type `defaultType`. -/
def parse (defaultType : Option Ty) (source : String) : Except (List SyntaxError) Domain :=
  ofTokens defaultType (tokenize source)

/-- The source begins like the description of a domain. -/
def isDomain (source : String) : Bool :=
  Outline.isTitled "domain" (tokenize source)

/-- The table of the declared types. -/
def hierarchy (d : Domain) : Hierarchy :=
  .ofDeclarations d.types

/-- The type `child` is `parent` or derives from it. -/
def isSubtype (d : Domain) (child parent : String) : Bool :=
  d.hierarchy.isSubtype? child parent = some true

/-- The first declared predicate with a name, whatever the case of its letters. -/
def predicate? (d : Domain) (name : String) : Option Atom :=
  d.predicates.find? fun a => sameWord a.name name

/-- The first action with a name, whatever the case of its letters. -/
def action? (d : Domain) (name : String) : Option Action :=
  d.actions.find? fun a => sameWord a.name name

end Domain

end PlanLang
