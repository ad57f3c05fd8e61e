import PlanLang.Proofs.Description
import PlanLang.Proofs.Section.Value

/-!
# The default type of descriptions

A default type plays a part only where a declared item or a bound variable has no type.  So reading
a description with a default type comes to the same as reading it without one and filling in the
type afterwards.
-/

namespace PlanLang

/-! ### Sections -/

theorem SectionKind.read_withDefault (k : SectionKind) (gate : Gate) (T : Option Ty)
    (tokens : List Token) :
  (k.read gate T tokens).map Prod.fst
    = ((k.read gate none tokens).map Prod.fst).map (Section.withDefault T)
  := by
  rw [k.read_eq gate T, k.read_eq gate none]
  cases gate.check (k.reader (.start tokens)).1 with
  | error e => rfl
  | ok u =>
    cases k.read .unlimited none tokens with
    | error e => rfl
    | ok p => simp [Except.bind, Except.map, Section.withDefault_none]

theorem Outline.read_withDefault (o : Outline) (gate : Gate) (T : Option Ty) :
  o.read gate T = (o.read gate none).map (List.map (Section.withDefault T))
  := by
  rw [read, read, ← gather_map, List.map_map]
  congr 1
  apply List.map_congr_left
  intro ⟨k, tokens⟩ _
  apply k.read_withDefault

/-! ### Domains -/

namespace Domain

/-- The domain with the type `ty` for each constant, each variable of a declared predicate, each
parameter of an action and each bound variable that has none of its own. -/
def withDefault (ty : Option Ty) (d : Domain) : Domain :=
  { d with
    constants := d.constants.map (Constant.withDefault ty)
    predicates := d.predicates.map (Atom.withVariableDefault ty)
    actions := d.actions.map (Action.withDefault ty) }

theorem ofSections_withDefault (name : String) (requirements : Requirements) (T : Option Ty)
    (ss : List Section) :
  ofSections name requirements (ss.map (Section.withDefault T))
    = (ofSections name requirements ss).withDefault T
  := by
  have htypes : ∀ s : Section, (s.withDefault T).declaredTypes = s.declaredTypes := by
    intro s
    cases s <;> rfl
  have hconstants : ∀ s : Section, (s.withDefault T).declaredConstants
      = s.declaredConstants.map (Constant.withDefault T) := by
    intro s
    cases s <;> rfl
  have hpredicates : ∀ s : Section, (s.withDefault T).declaredPredicates
      = s.declaredPredicates.map (Atom.withVariableDefault T) := by
    intro s
    cases s <;> rfl
  have hactions : ∀ s : Section, (s.withDefault T).declaredActions
      = s.declaredActions.map (Action.withDefault T) := by
    intro s
    cases s <;> rfl
  simp only [ofSections, withDefault, List.flatMap_map, List.map_flatMap, htypes, hconstants,
    hpredicates, hactions]

theorem ofTokens_withDefault (T : Option Ty) (tokens : List Token) :
  ofTokens T tokens = (ofTokens none tokens).map (withDefault T)
  := by
  cases h : (outline (.start tokens)).2 with
  | error e =>
    rw [ofTokens_of_error h, ofTokens_of_error h]
    rfl
  | ok p =>
    obtain ⟨⟨name, o⟩, c⟩ := p
    rw [ofTokens_of_ok h, ofTokens_of_ok h, o.read_withDefault _ T]
    cases o.read (.declared o.available) none with
    | error es => rfl
    | ok ss => exact congrArg Except.ok (ofSections_withDefault _ _ T ss)

end Domain

/-! ### Problems -/

namespace Problem

/-- The problem with the type `ty` for each object and each bound variable that has none of its
own. -/
def withDefault (ty : Option Ty) (p : Problem) : Problem :=
  { p with
    objects := p.objects.map (Constant.withDefault ty)
    goal := p.goal.map (Formula.withDefault ty) }

theorem ofSections_withDefault (name domain : String) (requirements : Requirements)
    (T : Option Ty) (ss : List Section) :
  ofSections name domain requirements (ss.map (Section.withDefault T))
    = (ofSections name domain requirements ss).withDefault T
  := by
  have hobjects : ∀ s : Section, (s.withDefault T).declaredObjects
      = s.declaredObjects.map (Constant.withDefault T) := by
    intro s
    cases s <;> rfl
  have hinit : ∀ s : Section, (s.withDefault T).declaredInit = s.declaredInit := by
    intro s
    cases s <;> rfl
  have hgoal : ∀ s : Section, (s.withDefault T).declaredGoal
      = s.declaredGoal.map (Formula.withDefault T) := by
    intro s
    cases s <;> rfl
  simp only [ofSections, withDefault, List.flatMap_map, List.map_flatMap, List.findSome?_map,
    List.map_findSome?, Function.comp_def, hobjects, hinit, hgoal]

theorem ofTokens_withDefault (T : Option Ty) (tokens : List Token) :
  ofTokens T tokens = (ofTokens none tokens).map (withDefault T)
  := by
  cases h : (outline (.start tokens)).2 with
  | error e =>
    rw [ofTokens_of_error h, ofTokens_of_error h]
    rfl
  | ok p =>
    obtain ⟨⟨name, domain, o⟩, c⟩ := p
    rw [ofTokens_of_ok h, ofTokens_of_ok h, o.read_withDefault _ T]
    cases o.read (gate o) none with
    | error es => rfl
    | ok ss => exact congrArg Except.ok (ofSections_withDefault _ _ _ T ss)

end Problem

/-- Reading a description with a default type fails with the errors of reading it without one, and
otherwise gives the same description with the default type filled in: for constants and objects, for
the variables of declared predicates, for parameters and for bound variables that have no type. -/
theorem parse_withDefault (T : Option Ty) (source : String) :
  Domain.parse T source = (Domain.parse none source).map (Domain.withDefault T) ∧
    Problem.parse T source = (Problem.parse none source).map (Problem.withDefault T)
  := ⟨Domain.ofTokens_withDefault T _, Problem.ofTokens_withDefault T _⟩

end PlanLang
