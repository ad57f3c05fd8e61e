import PlanLang.Formula
import PlanLang.Reader.Formula

/-!
# Goals and effects among formulas

Not every formula can be a goal or an effect of a description.  The formulas that can be are
described here by their shape and by the words that an atom cannot have for a name, because a
list that begins with such a word is something else.
-/

namespace PlanLang

/-- The term is a constant. -/
def Term.isConst : Term → Bool
  | .var _ => false
  | .const _ => true

namespace Formula

/-- The words that do not begin an atom in a goal. -/
def reservedInGoals : List String :=
  ["and", "not", "forall"] ++ Reader.unsupportedGoals

/-- The words that do not begin an atom in an effect. -/
def reservedInEffects : List String :=
  ["and", "forall", "when", "not"] ++ Reader.unsupportedEffects

/-- The words that do not begin an atom in the effect of a conditional. -/
def reservedInConditionals : List String :=
  ["and", "not"] ++ Reader.unsupportedEffects

/-- The words that do not begin an atom in a conjunction that is the effect of a conditional. -/
def reservedInConjunctions : List String :=
  "not" :: Reader.unsupportedEffects

mutual

/-- The formula can be a goal. -/
def isGoal : Formula → Bool
  | atom a => a.name ∉ reservedInGoals
  | negation f => isGoal f
  | conjunction fs => areGoals fs
  | equality _ _ => true
  | universal _ f => isGoal f
  | conditional _ _ => false

/-- All formulas of a list can be goals. -/
def areGoals : List Formula → Bool
  | [] => true
  | f :: fs => isGoal f && areGoals fs

end

theorem areGoals_eq (fs : List Formula) :
  areGoals fs = fs.all isGoal
  := by
  induction fs with
  | nil => rfl
  | cons f fs ih => rw [areGoals, ih, List.all_cons]

/-- The formula is an atom whose name is not one of the words, or the negation of any atom. -/
def isLiteralExcept (words : List String) : Formula → Bool
  | atom a => a.name ∉ words
  | negation (atom _) => true
  | _ => false

/-- The formula can be the effect of a conditional. -/
def isConditionalEffect : Formula → Bool
  | conjunction fs => fs.all (isLiteralExcept reservedInConjunctions)
  | f => f.isLiteralExcept reservedInConditionals

mutual

/-- The formula can be an effect. -/
def isEffect : Formula → Bool
  | atom a => a.name ∉ reservedInEffects
  | negation (atom _) => true
  | negation _ => false
  | conjunction fs => areEffects fs
  | equality _ _ => false
  | universal _ f => isEffect f
  | conditional c e => c.isGoal && e.isConditionalEffect

/-- All formulas of a list can be effects. -/
def areEffects : List Formula → Bool
  | [] => true
  | f :: fs => isEffect f && areEffects fs

end

theorem areEffects_eq (fs : List Formula) :
  areEffects fs = fs.all isEffect
  := by
  induction fs with
  | nil => rfl
  | cons f fs ih => rw [areEffects, ih, List.all_cons]

/-- A literal can be an effect. -/
theorem isEffect_of_isLiteralExcept :
  ∀ {f : Formula}, f.isLiteralExcept reservedInEffects → f.isEffect
  | .atom _, h => h
  | .negation (.atom _), _ => rfl

/-- The formula can stand in an initial state: it is a literal about constants, and an atom that
is not negated is not called `not`. -/
def isInitLiteral : Formula → Bool
  | atom a => a.name ≠ "not" && a.terms.all Term.isConst
  | negation (atom a) => a.terms.all Term.isConst
  | _ => false

end Formula

end PlanLang
