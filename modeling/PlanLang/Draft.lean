import PlanLang.Builder
import PlanLang.Hierarchy

/-!
# Drafts

A draft collects what one section of a description declares while the section is reported
event by event. Whenever a part of the description is left, what has been built for it is
taken off the builder and noted, and nothing may be left over.
-/

namespace PlanLang

/-- What has been collected, and the builder of what comes next. -/
structure Draft where
  builder : Builder
  types : List TypeDeclaration
  constants : List Constant
  predicates : List Atom
  parameters : List Variable
  precondition : Option Formula
  effect : Option Formula
  init : List Formula
  goal : Option Formula
deriving DecidableEq

/-- An operation on a draft. It may fail, and the draft is there in either case. -/
abbrev Drafting :=
  EStateM BuildError Draft

namespace Draft

/-- The draft without entries. -/
def new (defaultType : Option Ty) : Draft where
  builder := .new defaultType
  types := []
  constants := []
  predicates := []
  parameters := []
  precondition := none
  effect := none
  init := []
  goal := none

/-- Carries out an operation on the builder of a draft. -/
def build {α : Type} (op : Build α) : Drafting α :=
  fun d =>
    match op d.builder with
    | .ok a b => .ok a { d with builder := b }
    | .error e b => .error e { d with builder := b }

/-- Adds the declaration of a single type name. -/
def declareType (parent name : Ty) : Drafting Unit :=
  match name.primitiveName? with
  | some n => modify fun d => { d with types := d.types ++ [.ofName n parent] }
  | none => build (Builder.fail "types" (.mismatch "type name" "either type"))

/-- Adds a declaration for each type name on top of the builder. -/
def declareTypes (parent : Ty) : Drafting Unit := do
  match ← build Builder.takeTypes with
  | [] => build (Builder.fail "types" (.arity "at least one type name" 0))
  | names => names.forM (declareType parent)

/-- Notes what has been built for a part of the description that is left. The type names
that stand at the end of the declared types without a parent derive from `object`. -/
def leave : Part → Drafting Unit
  | .subtypes => do
    declareTypes (← build Builder.takeType)
  | .types => do
    unless (← get).builder.isEmpty do declareTypes Ty.object
    build (Builder.checkEmpty "types")
  | .constants | .objects => do
    let cs ← build Builder.takeConstants
    modify fun d => { d with constants := cs }
    build (Builder.checkEmpty "objects")
  | .predicate => do
    let a ← build Builder.takePredicate
    modify fun d => { d with predicates := d.predicates ++ [a] }
    build (Builder.checkEmpty "predicate definition")
  | .parameters => do
    let vs ← build Builder.takeVariables
    modify fun d => { d with parameters := vs }
    build (Builder.checkEmpty "parameters")
  | .precondition => do
    let f ← build Builder.takeFormula?
    modify fun d => { d with precondition := f }
    build (Builder.checkEmpty "precondition")
  | .effect => do
    let f ← build Builder.takeFormula?
    modify fun d => { d with effect := f }
    build (Builder.checkEmpty "effect")
  | .initLiteral => do
    match ← build Builder.takeFormula? with
    | none => build (Builder.fail "init" .stackUnderflow)
    | some f =>
      modify fun d => { d with init := d.init ++ [f] }
      build (Builder.checkEmpty "init")
  | .goal => do
    let f ← build Builder.takeFormula?
    modify fun d => { d with goal := f }
    build (Builder.checkEmpty "goal")

/-- What an event does to a draft. -/
def onEvent : Event → Drafting Unit
  | .leave (.part p) => leave p
  | e => build (Builder.onEvent e)

end Draft

end PlanLang
