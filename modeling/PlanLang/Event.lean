/-!
# Events

A description is reported as a sequence of events: the entering and leaving of a construct,
and the names in between. The events of the parts of a construct lie between its entering
and its leaving.
-/

namespace PlanLang

/-- The constructs from which types, atoms and formulas are built. -/
inductive Shape where
  /-- a type with several names -/
  | either
  | atom
  | negation
  | conjunction
  | equality
  | universal
  | conditional
deriving DecidableEq, Repr

/-- The parts of a description that hold what is built. -/
inductive Part where
  /-- the declared types -/
  | types
  /-- type names followed by their common parent -/
  | subtypes
  | constants
  | objects
  /-- the declaration of one predicate -/
  | predicate
  | parameters
  | precondition
  | effect
  /-- one literal of the initial state -/
  | initLiteral
  | goal
deriving DecidableEq, Repr

/-- The constructs that are entered and left. -/
inductive Construct where
  | shape (s : Shape)
  /-- names followed by their common type -/
  | typedList
  | part (p : Part)
deriving DecidableEq, Repr

/-- What a name stands for. -/
inductive Role where
  | type
  | variable
  | constant
  | predicate
deriving DecidableEq, Repr

/-- One step of a report. -/
inductive Event where
  | enter (c : Construct)
  | leave (c : Construct)
  /-- A name; that of a variable is given without its question mark. -/
  | name (r : Role) (text : String)
deriving DecidableEq, Repr

end PlanLang
