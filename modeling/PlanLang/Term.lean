import PlanLang.Ty

/-!
# Terms and atoms

A term is a variable or a constant, and may carry the type that a list gave it. An atom is
the name of a predicate with the terms it applies to; it also serves as the declaration of
that predicate, its terms being the variables of the declaration.
-/

namespace PlanLang

/-- A variable. The name does not include the question mark. -/
structure Variable where
  name : String
  ty : Option Ty
deriving DecidableEq

/-- A named object. -/
structure Constant where
  name : String
  ty : Option Ty
deriving DecidableEq

/-- An argument of a predicate or a side of an equality. -/
inductive Term where
  | var (v : Variable)
  | const (c : Constant)
deriving DecidableEq

/-- A predicate with its arguments. -/
structure Atom where
  name : String
  terms : List Term
deriving DecidableEq

namespace Variable

/-- The untyped variable with a name that may be written with question marks in front and in
any case. -/
def ofName (name : String) : Variable :=
  ⟨(String.ofList (name.toList.dropWhile (· = '?'))).toLower, none⟩

/-- The variable with the type `ty` where it has none of its own. -/
def withDefault (ty : Option Ty) (v : Variable) : Variable :=
  { v with ty := v.ty.or ty }

/-- The text of a variable, which names out its type. -/
def text (v : Variable) : String :=
  "?" ++ v.name

end Variable

namespace Constant

/-- The untyped constant with a name in any case. -/
def ofName (name : String) : Constant :=
  ⟨name.toLower, none⟩

/-- The constant with the type `ty` where it has none of its own. -/
def withDefault (ty : Option Ty) (c : Constant) : Constant :=
  { c with ty := c.ty.or ty }

end Constant

namespace Term

/-- The type of a term. -/
def ty : Term → Option Ty
  | .var v => v.ty
  | .const c => c.ty

/-- The term with another type. -/
def withType (ty : Ty) : Term → Term
  | .var v => .var { v with ty := some ty }
  | .const c => .const { c with ty := some ty }

/-- The term with the type `ty` if it is a variable that has none of its own. -/
def withVariableDefault (ty : Option Ty) : Term → Term
  | .var v => .var (v.withDefault ty)
  | .const c => .const c

/-- The text of a term, which names out its type. -/
def text : Term → String
  | .var v => v.text
  | .const c => c.name

end Term

namespace Atom

/-- The atom of a predicate whose name may be in any case. -/
def ofName (name : String) (terms : List Term) : Atom :=
  ⟨name.toLower, terms⟩

/-- The number of arguments. -/
def arity (a : Atom) : Nat :=
  a.terms.length

/-- The atom with the type `ty` for each variable that has none of its own. -/
def withVariableDefault (ty : Option Ty) (a : Atom) : Atom :=
  { a with terms := a.terms.map (Term.withVariableDefault ty) }

/-- The text of an atom: its name and its terms in parentheses. -/
def text (a : Atom) : String :=
  "(" ++ " ".intercalate (a.name :: a.terms.map Term.text) ++ ")"

end Atom

end PlanLang
