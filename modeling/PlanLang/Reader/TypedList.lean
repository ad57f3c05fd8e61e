import PlanLang.Reader

/-!
# Typed lists

A typed list is a list of groups. A group is a run of names, or of variables, which may be
followed by a dash and the type of all of them. Only the last group can do without.
-/

namespace PlanLang

namespace Reader

/-- A type: a name, or `either` and one or more names in parentheses. -/
def typeAnnotation : Reader Unit := do
  match ← accept (·.kind = .name) with
  | some t => named .type t
  | none =>
    let _ ← expect (·.kind = .opening) ["identifier", "("]
    let _ ← expectName "either"
    within (.shape .either) do
      named .type (← expectKind .name)
      repeated do
        named .type (← expect (·.kind = .name) ["identifier", ")"])

/-- A group of tokens of one kind, whose names stand for a role. A group with a type is
entered and left as `group`. -/
def typedGroup (kind : TokenKind) (r : Role) (group : Construct) : Reader Unit := do
  match ← run kind with
  | [] =>
    let _ ← expect (fun _ => false) [kind.label, ")"]
  | t :: ts =>
    if ← found (·.kind = .dash) then
      within group do
        allNamed r (t :: ts)
        need .typing "typed list"
        typeAnnotation
    else
      allNamed r (t :: ts)

/-- The groups of a typed list up to the parenthesis that closes it. -/
def typedList (kind : TokenKind) (r : Role) (group : Construct) : Reader Unit :=
  repeated (typedGroup kind r group)

/-- A typed list of variables. -/
def variableList : Reader Unit :=
  typedList .var .variable .typedList

/-- A typed list of constants. -/
def constantList : Reader Unit :=
  typedList .name .constant .typedList

end Reader

end PlanLang
