import PlanLang.Term

/-!
# Formulas

A formula describes a goal or an effect. As a goal it states what must hold; as an effect it
states what becomes true, and a conditional says under which condition.
-/

namespace PlanLang

/-- The formulas of goals and effects. -/
inductive Formula where
  | atom (a : Atom)
  | negation (f : Formula)
  /-- The conjunction of no formulas is true. -/
  | conjunction (fs : List Formula)
  | equality (left right : Term)
  /-- The body holds for all values of the bound variables. -/
  | universal (bound : List Variable) (body : Formula)
  /-- The effect takes place where the condition holds. -/
  | conditional (condition effect : Formula)

namespace Formula

mutual

/-- Decides whether two formulas are equal. -/
def decideEq : (f g : Formula) → Decidable (f = g)
  | atom a, atom b =>
    if h : a = b then isTrue (by rw [h]) else isFalse (by simp [h])
  | negation f, negation g =>
    match decideEq f g with
    | isTrue h => isTrue (by rw [h])
    | isFalse h => isFalse (by simp [h])
  | conjunction fs, conjunction gs =>
    match decideEqAll fs gs with
    | isTrue h => isTrue (by rw [h])
    | isFalse h => isFalse (by simp [h])
  | equality l r, equality l' r' =>
    if h : l = l' ∧ r = r' then isTrue (by rw [h.1, h.2]) else isFalse (by simpa using h)
  | universal vs f, universal ws g =>
    if h : vs = ws then
      match decideEq f g with
      | isTrue h' => isTrue (by rw [h, h'])
      | isFalse h' => isFalse (by simp [h'])
    else isFalse (by simp [h])
  | conditional c e, conditional c' e' =>
    match decideEq c c', decideEq e e' with
    | isTrue h, isTrue h' => isTrue (by rw [h, h'])
    | isFalse h, _ => isFalse (by simp [h])
    | _, isFalse h => isFalse (by simp [h])
  | atom _, negation _ | atom _, conjunction _ | atom _, equality _ _
  | atom _, universal _ _ | atom _, conditional _ _
  | negation _, atom _ | negation _, conjunction _ | negation _, equality _ _
  | negation _, universal _ _ | negation _, conditional _ _
  | conjunction _, atom _ | conjunction _, negation _ | conjunction _, equality _ _
  | conjunction _, universal _ _ | conjunction _, conditional _ _
  | equality _ _, atom _ | equality _ _, negation _ | equality _ _, conjunction _
  | equality _ _, universal _ _ | equality _ _, conditional _ _
  | universal _ _, atom _ | universal _ _, negation _ | universal _ _, conjunction _
  | universal _ _, equality _ _ | universal _ _, conditional _ _
  | conditional _ _, atom _ | conditional _ _, negation _ | conditional _ _, conjunction _
  | conditional _ _, equality _ _ | conditional _ _, universal _ _ => isFalse (by simp)

/-- Decides whether two lists of formulas are equal. -/
def decideEqAll : (fs gs : List Formula) → Decidable (fs = gs)
  | [], [] => isTrue rfl
  | f :: fs, g :: gs =>
    match decideEq f g, decideEqAll fs gs with
    | isTrue h, isTrue h' => isTrue (by rw [h, h'])
    | isFalse h, _ => isFalse (by simp [h])
    | _, isFalse h => isFalse (by simp [h])
  | [], _ :: _ | _ :: _, [] => isFalse (by simp)

end

instance : DecidableEq Formula :=
  decideEq

/-- The formula is an atom or the negation of one. -/
def isLiteral : Formula → Bool
  | atom _ => true
  | negation (atom _) => true
  | _ => false

end Formula

end PlanLang
