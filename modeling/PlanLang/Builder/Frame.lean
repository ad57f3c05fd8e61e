import PlanLang.Builder.Error
import PlanLang.Event
import PlanLang.Formula

/-!
# Frames

A builder holds frames. A frame is either an opening, which tells what is being built from
the frames above it, or a finished type, term, atom or formula. Closing an opening assembles
the frames above it, its parts, into one finished frame.
-/

namespace PlanLang

/-- The beginning of a construct that is not closed yet. That of an atom holds the name of
the predicate once it is known. -/
inductive Opening where
  | either
  | atom (name : Option String)
  | negation
  | conjunction
  | equality
  | universal
  | conditional
deriving DecidableEq, Repr

namespace Opening

/-- The beginning of a construct. -/
def ofShape : Shape → Opening
  | .either => either
  | .atom => atom none
  | .negation => negation
  | .conjunction => conjunction
  | .equality => equality
  | .universal => universal
  | .conditional => conditional

/-- The construct that an opening begins. -/
def shape : Opening → Shape
  | either => .either
  | atom _ => .atom
  | negation => .negation
  | conjunction => .conjunction
  | equality => .equality
  | universal => .universal
  | conditional => .conditional

end Opening

/-- The words for an open construct. -/
def Shape.openLabel : Shape → String
  | either => "open either"
  | atom => "open predicate"
  | negation => "open not"
  | conjunction => "open and"
  | equality => "open ="
  | universal => "open forall"
  | conditional => "open when"

/-- An entry of a builder. -/
inductive Frame where
  | opened (o : Opening)
  | ty (t : Ty)
  | term (t : Term)
  | atom (a : Atom)
  | formula (f : Formula)
deriving DecidableEq

namespace Frame

/-- The word for a kind of frame in messages. -/
def label : Frame → String
  | opened o => o.shape.openLabel
  | ty _ => "type"
  | term (.var _) => "variable"
  | term (.const _) => "constant"
  | atom _ => "predicate"
  | formula _ => "formula"

/-- The frame begins a construct. -/
def isOpen : Frame → Bool
  | opened _ => true
  | _ => false

/-- The type in a frame. -/
def ty? : Frame → Option Ty
  | ty t => some t
  | _ => none

/-- The term in a frame. -/
def term? : Frame → Option Term
  | term t => some t
  | _ => none

/-- The variable in a frame. -/
def var? : Frame → Option Variable
  | term (.var v) => some v
  | _ => none

/-- The constant in a frame. -/
def const? : Frame → Option Constant
  | term (.const c) => some c
  | _ => none

/-- The atom in a frame. -/
def atom? : Frame → Option Atom
  | atom a => some a
  | _ => none

/-- The formula in a frame; an atom is one. -/
def formula? : Frame → Option Formula
  | formula f => some f
  | atom a => some (.atom a)
  | _ => none

/-- The frame holds a term that has no type. -/
def isUntyped : Frame → Bool
  | term t => t.ty.isNone
  | _ => false

/-- The frame with the type `ty` for its term. -/
def withType (ty : Ty) : Frame → Frame
  | term t => term (t.withType ty)
  | f => f

end Frame

namespace Opening

open BuildError

/-- What `view` finds in each part; all parts have to be of the kind it looks for. -/
def collect {α : Type} (expected : String) (view : Frame → Option α) (parts : List Frame) :
    Except Kind (List α) :=
  parts.mapM fun part =>
    match view part with
    | some a => .ok a
    | none => .error (.mismatch expected part.label)

/-- A type has the names of all its parts. -/
def assembleEither (parts : List Frame) : Except Kind Frame := do
  match ← collect "type" Frame.ty? parts with
  | [] => .error (.arity "at least one type" 0)
  | t :: ts => .ok (.ty (ts.foldl Ty.union t))

/-- An atom applies its name to the terms that are its parts. -/
def assembleAtom (name : String) (parts : List Frame) : Except Kind Frame := do
  let terms ← collect "term" Frame.term? parts
  .ok (.atom ⟨name, terms⟩)

/-- A negation has one part. -/
def assembleNegation (parts : List Frame) : Except Kind Frame := do
  match ← collect "formula" Frame.formula? parts with
  | [f] => .ok (.formula (.negation f))
  | fs => .error (.arity "exactly one formula" fs.length)

/-- A conjunction may have any number of parts. -/
def assembleConjunction (parts : List Frame) : Except Kind Frame := do
  let fs ← collect "formula" Frame.formula? parts
  .ok (.formula (.conjunction fs))

/-- An equality has two terms. -/
def assembleEquality (parts : List Frame) : Except Kind Frame := do
  if parts.length ≠ 2 then .error (.arity "exactly two terms" parts.length)
  else
    match ← collect "term" Frame.term? parts with
    | [l, r] => .ok (.formula (.equality l r))
    | ts => .error (.arity "exactly two terms" ts.length)

/-- A universal formula binds variables, which come first, in its body, the only formula
among its parts. A variable without a type gets the type `defaultType`. -/
def assembleUniversal (defaultType : Option Ty) (parts : List Frame) : Except Kind Frame := do
  let bodies := (parts.filter fun part => part.formula?.isSome).length
  match parts.getLast? with
  | none => .error (.arity "exactly one body formula" bodies)
  | some last =>
    if bodies ≠ 1 then .error (.arity "exactly one body formula" bodies)
    else
      match last.formula? with
      | none => .error (.mismatch "formula" last.label)
      | some body =>
        let bound ← collect "variable" Frame.var? parts.dropLast
        .ok (.formula (.universal (bound.map (Variable.withDefault defaultType)) body))

/-- A conditional has a condition and an effect. -/
def assembleConditional (parts : List Frame) : Except Kind Frame := do
  match ← collect "formula" Frame.formula? parts with
  | [c, e] => .ok (.formula (.conditional c e))
  | fs => .error (.arity "a condition and an effect" fs.length)

/-- The finished frame that an opening and its parts, in order, make up. The type
`defaultType` is for bound variables that have none. -/
def assemble (defaultType : Option Ty) : Opening → List Frame → Except Kind Frame
  | either, parts => assembleEither parts
  | atom none, _ => .error .nameless
  | atom (some name), parts => assembleAtom name parts
  | negation, parts => assembleNegation parts
  | conjunction, parts => assembleConjunction parts
  | equality, parts => assembleEquality parts
  | universal, parts => assembleUniversal defaultType parts
  | conditional, parts => assembleConditional parts

end Opening

end PlanLang
