import PlanLang.Reader.TypedList

/-!
# Readers of formulas

Goals are made of atoms, equalities, conjunctions, negations and universal formulas. Effects
are literals, conjunctions and universal formulas of effects, and conditionals, whose
condition is a goal and whose effect is a literal or a conjunction of literals.
-/

namespace PlanLang

namespace Reader

/-- The first words of goals that are not covered. -/
def unsupportedGoals : List String :=
  ["or", "imply", "exists", "preference"]

/-- The first words of effects that are not covered. -/
def unsupportedEffects : List String :=
  ["assign", "increase", "decrease", "scale-up", "scale-down", "forall-undefined"]

/-- A term of an atom or an equality. -/
def term : Reader Unit := do
  match ← accept (·.kind = .var) with
  | some t => named .variable t
  | none => named .constant (← expect (·.kind = .name) ["variable", "identifier"])

/-- A constant as an argument of a ground atom. -/
def groundTerm : Reader Unit := do
  named .constant (← expect (·.kind = .name) ["identifier", ")"])

/-- An atom after its opening parenthesis; each argument is read by `argument`. -/
def atom (argument : Reader Unit) : Reader Unit := do
  let t ← expectKind .name
  within (.shape .atom) do
    named .predicate t
    repeated argument

/-- A negated atom after its opening parenthesis and the word `not`. -/
def negatedAtom (argument : Reader Unit) : Reader Unit :=
  within (.shape .negation) do
    opening
    atom argument
    closing

/-- The variables and the body of a universal formula, after the word `forall`. -/
def universal (body : Reader Unit) : Reader Unit :=
  within (.shape .universal) do
    opening
    variableList
    body
    closing

/-- What follows the opening parenthesis of a goal; goals inside are read by `goal`. -/
def goalContents (goal : Reader Unit) : Reader Unit := do
  if ← found (·.kind = .equals) then
    need .equality "="
    within (.shape .equality) do
      term
      term
      closing
  else if ← found (·.isName "and") then
    within (.shape .conjunction) (repeated goal)
  else if ← found (·.isName "not") then
    within (.shape .negation) do
      goal
      closing
  else if ← found (·.isName "forall") then
    need .universalPreconditions "forall goal"
    universal goal
  else
    refuse unsupportedGoals
    atom term

/-- A goal. -/
def goal : Reader Unit :=
  nested goalContents

/-- What follows the opening parenthesis of a literal in an effect. -/
def literalContents : Reader Unit := do
  if ← found (·.isName "not") then
    negatedAtom term
  else
    refuse unsupportedEffects
    atom term

/-- The effect of a conditional. -/
def conditionalEffect : Reader Unit := do
  opening
  if ← found (·.isName "and") then
    within (.shape .conjunction) <| repeated do
      opening
      literalContents
  else
    literalContents

/-- What follows the opening parenthesis of an effect; effects inside are read by
`effect`. -/
def effectContents (effect : Reader Unit) : Reader Unit := do
  if ← found (·.isName "and") then
    within (.shape .conjunction) (repeated effect)
  else if ← found (·.isName "forall") then
    need .conditionalEffects "forall effect"
    universal effect
  else if ← found (·.isName "when") then
    need .conditionalEffects "when effect"
    within (.shape .conditional) do
      goal
      conditionalEffect
      closing
  else
    literalContents

/-- An effect. -/
def effect : Reader Unit :=
  nested effectContents

/-- A formula, or an empty list in place of one. -/
def orEmpty (formula : Reader Unit) : Reader Unit := do
  if ← acceptEmptyList then
    pure ()
  else
    formula

end Reader

end PlanLang
