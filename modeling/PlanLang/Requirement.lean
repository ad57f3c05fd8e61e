import PlanLang.Word

/-!
# Requirements

A description of a planning domain or problem declares the features of the language it
relies on. Each feature has a keyword, and some features stand for several others.
-/

namespace PlanLang

/-- The features that a description can declare. -/
inductive Requirement where
  | strips
  | typing
  | equality
  | negativePreconditions
  | disjunctivePreconditions
  | existentialPreconditions
  | universalPreconditions
  | quantifiedPreconditions
  | conditionalEffects
  | fluents
  | numericFluents
  | objectFluents
  | adl
  | durativeActions
  | durationInequalities
  | continuousEffects
  | derivedPredicates
  | timedInitialLiterals
  | preferences
  | constraints
  | actionCosts
deriving DecidableEq, Repr

namespace Requirement

/-- Every requirement, in the order in which they are listed. -/
def all : List Requirement :=
  [strips, typing, equality, negativePreconditions, disjunctivePreconditions,
    existentialPreconditions, universalPreconditions, quantifiedPreconditions,
    conditionalEffects, fluents, numericFluents, objectFluents, adl, durativeActions,
    durationInequalities, continuousEffects, derivedPredicates, timedInitialLiterals,
    preferences, constraints, actionCosts]

/-- No requirement is left out of the list. -/
theorem mem_all (r : Requirement) :
  r ∈ all
  := by
  cases r <;> decide

/-- The keyword that declares a requirement. -/
def keyword : Requirement → String
  | strips => ":strips"
  | typing => ":typing"
  | equality => ":equality"
  | negativePreconditions => ":negative-preconditions"
  | disjunctivePreconditions => ":disjunctive-preconditions"
  | existentialPreconditions => ":existential-preconditions"
  | universalPreconditions => ":universal-preconditions"
  | quantifiedPreconditions => ":quantified-preconditions"
  | conditionalEffects => ":conditional-effects"
  | fluents => ":fluents"
  | numericFluents => ":numeric-fluents"
  | objectFluents => ":object-fluents"
  | adl => ":adl"
  | durativeActions => ":durative-actions"
  | durationInequalities => ":duration-inequalities"
  | continuousEffects => ":continuous-effects"
  | derivedPredicates => ":derived-predicates"
  | timedInitialLiterals => ":timed-initial-literals"
  | preferences => ":preferences"
  | constraints => ":constraints"
  | actionCosts => ":action-costs"

/-- The requirement that a keyword declares, whatever the case of its letters. -/
def ofKeyword? (word : String) : Option Requirement :=
  all.find? fun r => sameWord r.keyword word

/-- The place of a requirement in the list of all of them, counted from zero. -/
def index (r : Requirement) : Nat :=
  all.idxOf r

/-- The requirements that a requirement stands for directly. -/
def implies : Requirement → List Requirement
  | quantifiedPreconditions => [existentialPreconditions, universalPreconditions]
  | fluents => [numericFluents, objectFluents]
  | timedInitialLiterals => [durativeActions]
  | adl =>
    [strips, typing, equality, negativePreconditions, disjunctivePreconditions,
      quantifiedPreconditions, conditionalEffects]
  | _ => []

/-- The length of the longest chain of implications that starts at a requirement. -/
def rank : Requirement → Nat
  | adl => 2
  | quantifiedPreconditions => 1
  | fluents => 1
  | timedInitialLiterals => 1
  | _ => 0

/-- Implications lead to requirements of a smaller rank, so they have no cycle. -/
theorem rank_lt_of_mem_implies (r : Requirement) :
  ∀ s ∈ r.implies, s.rank < r.rank
  := by
  cases r <;> decide

/-- A requirement together with all that it stands for, directly or not. -/
def closure (r : Requirement) : List Requirement :=
  r :: r.implies.attach.flatMap fun s => closure s.1
termination_by r.rank
decreasing_by exact rank_lt_of_mem_implies r s.1 s.2

end Requirement

end PlanLang
