import PlanLang.Builder.Operation

/-!
# Traces

Operations are carried out one after the other, also after one that has failed.  The trace of a run
tells what each of its operations has come to.
-/

namespace PlanLang

/-- What an operation comes to: its answer or its error. -/
abbrev Outcome :=
  Except BuildError Answer

namespace Operation

/-- What an operation comes to, and the builder after it. -/
def step (op : Operation) (b : Builder) : Outcome × Builder :=
  match op.run b with
  | .ok a b => (.ok a, b)
  | .error e b => (.error e, b)

/-- The operations of a run that starts from a builder, each with what it comes to. -/
def trace (b : Builder) : List Operation → List (Operation × Outcome)
  | [] => []
  | op :: ops => (op, (op.step b).1) :: trace (op.step b).2 ops

/-- The builder at the end of a run. -/
def runAll (b : Builder) (ops : List Operation) : Builder :=
  ops.foldl (fun b op => (op.step b).2) b

end Operation

end PlanLang
