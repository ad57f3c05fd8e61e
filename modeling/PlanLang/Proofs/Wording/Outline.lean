import PlanLang.Outline
import PlanLang.Proofs.Wording.Section

/-!
# Outlines and alike tokens

The outline of a description is found from the kinds of its tokens and the words that they are: the
same sections are announced and the same requirements declared, and the tokens of each section are
alike.  So all sections declare the same, or the same errors are found in them, one for one.
-/

namespace PlanLang

variable {near : Position → Position → Prop}

namespace Outline

/-- Two outlines have the same requirements, and sections of the same kinds whose tokens are
alike. -/
structure Alike (near : Position → Position → Prop) (o o' : Outline) : Prop where
  requirements : o.requirements = o'.requirements
  sections : List.Forall₂
    (fun s s' => s.1 = s'.1 ∧ List.Forall₂ (Token.Alike near) s.2 s'.2) o.sections o'.sections

variable {o o' : Outline}

theorem Alike.available (h : o.Alike near o') :
  o.available = o'.available
  := by
  rw [Outline.available, Outline.available, h.requirements]

/-! ### What stands below a heading -/

end Outline

end PlanLang
