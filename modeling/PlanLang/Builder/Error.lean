/-!
# Building errors

An operation of a builder fails when the operations before it do not describe what it is
asked for. The error tells which operation failed, how many frames the builder held at that
time, and why.
-/

namespace PlanLang

namespace BuildError

/-- Why an operation failed. -/
inductive Kind where
  /-- Nothing is open that could be closed, or nothing is there that could be taken. -/
  | stackUnderflow
  /-- A construct has the wrong number of parts. -/
  | arity (expected : String) (found : Nat)
  /-- A frame of one kind stands where another is needed. -/
  | mismatch (expected found : String)
  /-- A predicate is closed before it has a name. -/
  | nameless
  /-- Another construct has to be closed first, or something is left over. -/
  | unbalanced (found : String)
deriving DecidableEq, Repr

/-- The text of a reason. -/
def Kind.text : Kind → String
  | stackUnderflow => "stack underflow"
  | arity expected found =>
    "expected " ++ expected ++ ", found " ++ toString found ++ " element(s)"
  | mismatch expected found => "expected " ++ expected ++ ", found " ++ found
  | nameless => "predicate has no name"
  | unbalanced found => "unbalanced construct, found " ++ found

end BuildError

/-- The failure of an operation. -/
structure BuildError where
  kind : BuildError.Kind
  /-- the name of the operation -/
  operation : String
  /-- the number of frames when the operation was called -/
  depth : Nat
deriving DecidableEq, Repr

/-- The text of an error. -/
def BuildError.message (e : BuildError) : String :=
  e.operation ++ ": " ++ e.kind.text ++ " (stack depth " ++ toString e.depth ++ ")"

end PlanLang
