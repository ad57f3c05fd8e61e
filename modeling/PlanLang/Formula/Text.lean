import PlanLang.Formula

/-!
# The text of formulas

Formulas are written the way they are read. Terms inside a formula are written without their
types; the variables that a formula binds are written with theirs, where neighbours of the
same type share one annotation.
-/

namespace PlanLang

/-- The annotation after a variable that other variables follow: its type, unless the next
variable has the same type and so carries the annotation for both. -/
def Variable.typeText (v : Variable) (following : List Variable) : String :=
  match v.ty with
  | none => ""
  | some ty => if following.head?.bind Variable.ty = some ty then "" else " - " ++ ty.text

/-- The text of a list of variables with their types. -/
def Variable.listText : List Variable → String
  | [] => ""
  | [v] => v.text ++ v.typeText []
  | v :: w :: vs => v.text ++ v.typeText (w :: vs) ++ " " ++ listText (w :: vs)

namespace Formula

mutual

/-- The text of a formula. -/
def text : Formula → String
  | atom a => a.text
  | negation f => "(not " ++ text f ++ ")"
  | conjunction fs => "(and" ++ textAll fs ++ ")"
  | equality l r => "(= " ++ l.text ++ " " ++ r.text ++ ")"
  | universal vs f => "(forall (" ++ Variable.listText vs ++ ") " ++ text f ++ ")"
  | conditional c e => "(when " ++ text c ++ " " ++ text e ++ ")"

/-- The texts of formulas, each after a blank. -/
def textAll : List Formula → String
  | [] => ""
  | f :: fs => " " ++ text f ++ textAll fs

end

end Formula

end PlanLang
