import Mathlib.Data.Finset.Lattice.Lemmas
import PlanLang.Proofs.Report
import PlanLang.Requirement

/-!
# What formulas need

Each construct outside of the common part of the language needs a requirement: an equality, a
universal formula, a conditional, and a type that is given to an item of a list.  What a universal
formula needs depends on where it stands.
-/

namespace PlanLang

/-- Where a formula stands: among goals, as the condition of a conditional does, or among
effects. -/
inductive Formula.Place where
  | goal
  | effect
deriving DecidableEq, Repr

/-- The requirement that universal formulas need. -/
def Formula.Place.universal : Formula.Place → Requirement
  | goal => .universalPreconditions
  | effect => .conditionalEffects

/-- The requirement for types, if there are any. -/
def typingIf (typed : Bool) : Finset Requirement :=
  if typed then {.typing} else ∅

theorem typingIf_or (a b : Bool) :
  typingIf (a || b) = typingIf a ∪ typingIf b
  := by
  cases a <;> cases b <;> rfl

/-- What a list of variables needs. -/
def Variable.needs (vs : List Variable) : Finset Requirement :=
  typingIf (vs.any (·.ty.isSome))

/-- What a list of constants needs. -/
def Constant.needs (cs : List Constant) : Finset Requirement :=
  typingIf (cs.any (·.ty.isSome))

/-- What a typed list needs: each of its groups has a type. -/
def TypedList.needs (l : TypedList) : Finset Requirement :=
  typingIf !l.groups.isEmpty

namespace Formula

mutual

/-- What a formula at a place needs. -/
def needs : Place → Formula → Finset Requirement
  | _, atom _ => ∅
  | place, negation f => needs place f
  | place, conjunction fs => needsAll place fs
  | _, equality _ _ => {.equality}
  | place, universal vs f => insert place.universal (Variable.needs vs ∪ needs place f)
  | _, conditional c e => insert .conditionalEffects (needs .goal c ∪ needs .effect e)

/-- What the formulas of a list need. -/
def needsAll : Place → List Formula → Finset Requirement
  | _, [] => ∅
  | place, f :: fs => needs place f ∪ needsAll place fs

end

end Formula

/-! ### Typed lists -/

/-- A group of a reported typed list has names. -/
theorem TypedList.Report.forall_ne_nil {r : Role} {g : Construct} {l : TypedList} {es : List Event}
    (h : l.Report r g es) :
  ∀ group ∈ l.groups, group.1 ≠ []
  := by
  induction h with
  | trailing names => exact nofun
  | group hnames ht h ih =>
    rw [List.forall_mem_cons]
    exact ⟨hnames, ih⟩

/-- Some item of a typed list has a type if and only if there is a group. -/
theorem TypedList.any_items {α : Type} {item : String → α} {withType : Ty → α → α}
    (ty : α → Option Ty) (hitem : ∀ name, ty (item name) = none)
    (htyped : ∀ t a, ty (withType t a) = some t)
    {l : TypedList} (h : ∀ group ∈ l.groups, group.1 ≠ []) :
  (l.items item withType).any (fun a => (ty a).isSome) = !l.groups.isEmpty
  := by
  obtain ⟨groups, trailing⟩ := l
  have htrailing : (trailing.map item).any (fun a => (ty a).isSome) = false := by
    simp [hitem]
  rw [items, List.any_append, htrailing, Bool.or_false]
  cases groups with
  | nil => rfl
  | cons group groups =>
    obtain ⟨names, t⟩ := group
    obtain ⟨name, names, rfl⟩ := List.exists_cons_of_ne_nil (h _ List.mem_cons_self)
    simp [htyped]

theorem TypedList.needs_toVariables {l : TypedList} (h : ∀ group ∈ l.groups, group.1 ≠ []) :
  Variable.needs l.toVariables = l.needs
  := congrArg typingIf (any_items Variable.ty (fun _ => rfl) (fun _ _ => rfl) h)

theorem TypedList.needs_toConstants {l : TypedList} (h : ∀ group ∈ l.groups, group.1 ≠ []) :
  Constant.needs l.toConstants = l.needs
  := congrArg typingIf (any_items Constant.ty (fun _ => rfl) (fun _ _ => rfl) h)

end PlanLang
