import PlanLang.Domain
import PlanLang.Problem
import PlanLang.Proofs.Wording.Outline

/-!
# The wording of descriptions

The wording of a source is what is left of it without blanks, comments and the case of letters: the
kinds of its tokens and the words that they are.  Domains and problems are read from the wording
alone.  From sources with the same wording the same is read, or the same errors are found, and only
places and texts that are quoted from a source may differ.  If two sources differ in nothing but the
case of their letters, then not even places do.
-/

namespace PlanLang

/-! ### Domains -/

namespace Domain

/-- Two domains are the same, but for the places of their actions, which are related. -/
structure Alike (near : Position → Position → Prop) (d d' : Domain) : Prop where
  name : d.name = d'.name
  requirements : d.requirements = d'.requirements
  types : d.types = d'.types
  constants : d.constants = d'.constants
  predicates : d.predicates = d'.predicates
  actions : List.Forall₂ (Action.Alike near) d.actions d'.actions

end Domain

/-- Actions whose places are the same are the same. -/
theorem Action.Alike.eq {a a' : Action} (h : a.Alike (· = ·) a') :
  a = a'
  := by
  cases a
  cases a'
  cases h
  simp_all

/-- Domains with actions in the same places are the same. -/
theorem Domain.Alike.eq {d d' : Domain} (h : d.Alike (· = ·) d') :
  d = d'
  := by
  have hactions : d.actions = d'.actions := by
    rw [← List.forall₂_eq_eq_eq]
    exact h.actions.imp fun _ _ => Action.Alike.eq
  cases d
  cases d'
  cases h
  simp_all

variable {near : Position → Position → Prop} {ts ts' : List Token} {ss ss' : List Section}

namespace Domain

end Domain

/-! ### Problems -/

namespace Problem

end Problem

/-! ### Wordings -/

end PlanLang
