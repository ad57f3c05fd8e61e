import PlanLang.Requirement

/-!
# Declared requirements

The requirements of a description are the ones it declares and all that these stand for. A
description that declares nothing still relies on `:strips`.
-/

namespace PlanLang

/-- A set of requirements, listed in the order of `Requirement.all`. -/
structure Requirements where
  toList : List Requirement
  toList_sublist : toList.Sublist Requirement.all
deriving DecidableEq, Repr

namespace Requirements

/-- No requirement is declared. -/
def empty : Requirements :=
  ⟨[], List.nil_sublist _⟩

/-- The set `s` after `r` is declared: `r` and all that it stands for are added. -/
def declare (s : Requirements) (r : Requirement) : Requirements where
  toList := Requirement.all.filter fun q => q ∈ s.toList || q ∈ r.closure
  toList_sublist := List.filter_sublist

/-- The requirement is available: it is in the set, or it is `:strips` and nothing is
declared. -/
def has (s : Requirements) (r : Requirement) : Bool :=
  r ∈ s.toList || (r = .strips && s.toList.isEmpty)

/-- Declaring a requirement adds what it stands for and keeps what was there. -/
theorem mem_toList_declare (s : Requirements) (r q : Requirement) :
  q ∈ (s.declare r).toList ↔ q ∈ s.toList ∨ q ∈ r.closure
  := by
  simp [declare, Requirement.mem_all]

end Requirements

end PlanLang
