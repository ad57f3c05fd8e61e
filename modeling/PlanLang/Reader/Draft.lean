import PlanLang.Draft
import PlanLang.Reader
import PlanLang.Requirements

/-!
# The draft of a report

Following the steps that a reader reports checks that the requirements it needs are available
and collects the events in a draft.
-/

namespace PlanLang

/-- The requirements that constructs may rely on. -/
inductive Gate where
  /-- No construct is held back. -/
  | unlimited
  /-- A construct needs its requirement to be among these. -/
  | declared (s : Requirements)
deriving DecidableEq, Repr

/-- The gate lets constructs pass that need `r`. -/
def Gate.allows : Gate → Requirement → Bool
  | unlimited, _ => true
  | declared s, r => s.has r

/-- The draft after the steps of a report, unless a step needs a requirement that is missing
or is an event that does not fit. -/
def Draft.follow (gate : Gate) : List (Position × Step) → Draft → Except SyntaxError Draft
  | [], d => .ok d
  | (p, .need r what) :: steps, d =>
    if gate.allows r then d.follow gate steps
    else .error ⟨p, .missingRequirement r what⟩
  | (p, .event e) :: steps, d =>
    match d.onEvent e with
    | .ok _ d => d.follow gate steps
    | .error error _ => .error ⟨p, .construct error⟩

/-- The value of a reader of some tokens, the draft of its report, and the cursor behind what
it has read. The first error counts: one in the report comes before the one that stops the
reader. -/
def Reader.draft {α : Type} (r : Reader α) (gate : Gate) (defaultType : Option Ty)
    (tokens : List Token) : Except SyntaxError (α × Draft × Cursor) := do
  let (steps, outcome) := r (.start tokens)
  let d ← (Draft.new defaultType).follow gate steps
  let (a, c) ← outcome
  return (a, d, c)

end PlanLang
