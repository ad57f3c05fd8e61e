import PlanLang.Proofs.Draft.Assembly
import PlanLang.Proofs.Formula.Grammar
import PlanLang.Proofs.Formula.Needs
import PlanLang.Section

/-!
# Reported sections

The report of a section says what the section declares, with nothing filled in for types that are
left out.  A draft that is told the report notes what is declared, with the default type filled in.
-/

namespace PlanLang

/-! ### Default types -/

/-- The action with the type `ty` for each parameter and each bound variable that has none of its
own. -/
def Action.withDefault (ty : Option Ty) (a : Action) : Action :=
  { a with
    parameters := a.parameters.map (Variable.withDefault ty)
    precondition := a.precondition.map (Formula.withDefault ty)
    effect := a.effect.map (Formula.withDefault ty) }

/-- What a section declares, with the type `ty` for each declared item and each bound variable
that has none of its own.  Literals of an initial state have no such items. -/
def Section.withDefault (ty : Option Ty) : Section → Section
  | types ds => .types ds
  | constants cs => .constants (cs.map (Constant.withDefault ty))
  | predicates as => .predicates (as.map (Atom.withVariableDefault ty))
  | action a => .action (a.withDefault ty)
  | objects cs => .objects (cs.map (Constant.withDefault ty))
  | init fs => .init fs
  | goal f => .goal (f.map (Formula.withDefault ty))

theorem Constant.withDefault_none (c : Constant) :
  c.withDefault none = c
  := by
  rw [withDefault, Option.or_none]

theorem Atom.withVariableDefault_none (a : Atom) :
  a.withVariableDefault none = a
  := by
  have hterm : Term.withVariableDefault none = id := by
    funext t
    cases t with
    | var v => rw [Term.withVariableDefault, Variable.withDefault_none, id]
    | const c => rfl
  rw [withVariableDefault, hterm, List.map_id]

/-- Without a default type nothing changes. -/
theorem Section.withDefault_none (s : Section) :
  s.withDefault none = s
  := by
  have hconstant := funext Constant.withDefault_none
  have hatom := funext Atom.withVariableDefault_none
  have hvariable := funext Variable.withDefault_none
  have hformula := funext Formula.withDefault_none
  cases s <;> simp [withDefault, Action.withDefault, hconstant, hatom, hvariable, hformula]

/-- A literal has no bound variables. -/
theorem Formula.withDefault_of_isInitLiteral {f : Formula} (h : f.isInitLiteral) (T : Option Ty) :
  f.withDefault T = f
  := by
  match f, h with
  | .atom _, _ => rfl
  | .negation (.atom _), _ => rfl

/-! ### What sections need -/

/-- The declaration of a predicate has a term with a type. -/
def Atom.isTyped (a : Atom) : Bool :=
  a.terms.any (·.ty.isSome)

/-- What a formula needs, if there is one. -/
def Formula.needsOption (place : Formula.Place) : Option Formula → Finset Requirement
  | none => ∅
  | some f => f.needs place

/-- What a section needs.  A declared type that has no parent derives from `object`, as if that
were written; so whether a parent is written is not seen from the types and given by `annotated`. -/
def Section.needs (annotated : Bool) : Section → Finset Requirement
  | types _ => typingIf annotated
  | constants cs => Constant.needs cs
  | predicates as => typingIf (as.any Atom.isTyped)
  | action a =>
    Variable.needs a.parameters ∪
      (Formula.needsOption .goal a.precondition ∪ Formula.needsOption .effect a.effect)
  | objects cs => Constant.needs cs
  | init fs => Formula.needsAll .goal fs
  | goal f => Formula.needsOption .goal f

/-! ### Formulas of sections -/

/-- The formulas of a section are goals, effects and literals where these belong. -/
def Section.hasGrammar : Section → Bool
  | action a => a.precondition.all Formula.isGoal && a.effect.all Formula.isEffect
  | init fs => fs.all Formula.isInitLiteral
  | goal f => f.all Formula.isGoal
  | _ => true

/-! ### Reports -/

/-- The events that report one item after the other, when `R` reports one. -/
inductive ReportEach {α : Type} (R : α → List Event → Prop) : List α → List Event → Prop where
  | nil : ReportEach R [] []
  | cons {a : α} {as : List α} {es es' : List Event} (h : R a es) (hs : ReportEach R as es') :
      ReportEach R (a :: as) (es ++ es')

/-- The events that report the declaration of a predicate. -/
inductive Atom.Report : Atom → List Event → Prop where
  | declared {l : TypedList} {es : List Event} (name : String)
      (h : l.Report .variable .typedList es) :
      Report (.ofName name (l.toVariables.map .var))
        (Event.within (.part .predicate)
          (Event.within (.shape .atom) (.name .predicate name :: es)))

/-- The events that report a formula of the initial state. -/
inductive Formula.InitReport : Formula → List Event → Prop where
  | literal {f : Formula} {es : List Event} (h : f.Report es) :
      InitReport f (Event.within (.part .initLiteral) es)

/-- The events that report a part of an action, which can be left out or empty. -/
inductive Formula.PartReport (p : Part) : Option Formula → List Event → Prop where
  | absent : PartReport p none []
  | written {f : Option Formula} {es : List Event} (h : ReportOption f es) :
      PartReport p f (Event.within (.part p) es)

/-- The events that report what a section declares.  Those of an action leave out its name and its
position, which are those of the token `name`. -/
inductive Section.Report (name : Token) : SectionKind → Section → List Event → Prop where
  | types {l : TypedList} {es : List Event} (h : l.Report .type (.part .subtypes) es) :
      Report name .types (.types l.toDeclarations) (Event.within (.part .types) es)
  | constants {l : TypedList} {es : List Event} (h : l.Report .constant .typedList es) :
      Report name .constants (.constants l.toConstants) (Event.within (.part .constants) es)
  | predicates {as : List Atom} {es : List Event} (h : ReportEach Atom.Report as es) :
      Report name .predicates (.predicates as) es
  | action {l : TypedList} {f g : Option Formula} {es es' es'' : List Event}
      (hl : l.Report .variable .typedList es) (hf : Formula.PartReport .precondition f es')
      (hg : Formula.PartReport .effect g es'') :
      Report name .action (.action ⟨name.name, name.position, l.toVariables, f, g⟩)
        (Event.within (.part .parameters) es ++ (es' ++ es''))
  | objects {l : TypedList} {es : List Event} (h : l.Report .constant .typedList es) :
      Report name .objects (.objects l.toConstants) (Event.within (.part .objects) es)
  | init {fs : List Formula} {es : List Event} (h : ReportEach Formula.InitReport fs es) :
      Report name .init (.init fs) es
  | goal {f : Option Formula} {es : List Event} (h : Formula.ReportOption f es) :
      Report name .goal (.goal f) (Event.within (.part .goal) es)

/-! ### What drafts note -/

/-- What a section of a kind declares, found in the draft of its report. -/
def SectionKind.result (name : Token) : SectionKind → Draft → Section
  | types, d => .types d.types
  | constants, d => .constants d.constants
  | predicates, d => .predicates d.predicates
  | action, d => .action ⟨name.name, name.position, d.parameters, d.precondition, d.effect⟩
  | objects, d => .objects d.constants
  | init, d => .init d.init
  | goal, d => .goal d.goal

namespace Draft

/-- Declared predicates are noted after those that are there. -/
theorem notes_predicates {as : List Atom} {es : List Event} (h : ReportEach Atom.Report as es)
    (T : Option Ty) :
  Notes T es
    fun d => { d with predicates := d.predicates ++ as.map (Atom.withVariableDefault T) }
  := by
  induction h with
  | nil =>
    intro d hd
    simp only [List.map_nil, List.append_nil]
    exact ⟨rfl, hd⟩
  | cons h _ ih =>
    obtain ⟨name, hl⟩ := h
    have hnotes := (notes_predicate name hl T).append ih
    simpa [Function.comp_def, Atom.withVariableDefault, Atom.ofName, Term.withVariableDefault]
      using hnotes

/-- Literals of the initial state are noted after those that are there. -/
theorem notes_literals {fs : List Formula} {es : List Event}
    (h : ReportEach Formula.InitReport fs es) (T : Option Ty) :
  Notes T es fun d => { d with init := d.init ++ fs.map (Formula.withDefault T) }
  := by
  induction h with
  | nil =>
    intro d hd
    simp only [List.map_nil, List.append_nil]
    exact ⟨rfl, hd⟩
  | cons h _ ih =>
    obtain ⟨h⟩ := h
    have hnotes := (notes_initLiteral h T).append ih
    simpa [Function.comp_def] using hnotes

/-- A part of an action is noted.  If it is left out, a draft without it stays as it is. -/
theorem notes_actionPart {p : Part} {f : Option Formula} {es : List Event}
    (note : Option Formula → Draft → Draft) (T : Option Ty)
    (hnote : ∀ {es}, Formula.ReportOption f es →
      Notes T (Event.within (.part p) es) (note (f.map (Formula.withDefault T))))
    (h : Formula.PartReport p f es) :
  ∃ note', Notes T es note' ∧
    ∀ d, note none d = d → note' d = note (f.map (Formula.withDefault T)) d
  := by
  cases h with
  | absent => exact ⟨id, notes_nil T, fun _ hd => hd.symm⟩
  | written h => exact ⟨_, hnote h, fun _ _ => rfl⟩

end Draft

/-- A draft without entries that is told the report of a section holds what the section declares,
with the default type filled in. -/
theorem Section.Report.notes {name : Token} {k : SectionKind} {s : Section} {es : List Event}
    (h : Report name k s es) (hs : s.hasGrammar) (T : Option Ty) :
  ∃ note, Draft.Notes T es note ∧ k.result name (note (.new T)) = s.withDefault T
  := by
  cases h with
  | types h => exact ⟨_, Draft.notes_types h T, rfl⟩
  | constants h => exact ⟨_, Draft.notes_constants h T (.inl rfl), rfl⟩
  | predicates h => exact ⟨_, Draft.notes_predicates h T, rfl⟩
  | @action l f g es es' es'' hl hf hg =>
    obtain ⟨note, hnote, hprecondition⟩ := Draft.notes_actionPart
      (fun f d => { d with precondition := f }) T (Draft.notes_precondition · T) hf
    obtain ⟨note', hnote', heffect⟩ := Draft.notes_actionPart
      (fun f d => { d with effect := f }) T (Draft.notes_effect · T) hg
    refine ⟨_, (Draft.notes_parameters hl T).append (hnote.append hnote'), ?_⟩
    rw [Function.comp_apply, Function.comp_apply, hprecondition _ rfl, heffect _ rfl]
    rfl
  | objects h => exact ⟨_, Draft.notes_constants h T (.inr rfl), rfl⟩
  | @init fs es h =>
    have hsame : fs.map (Formula.withDefault T) = fs := by
      rw [List.map_congr_left (g := id), List.map_id]
      intro f hf
      apply Formula.withDefault_of_isInitLiteral (List.all_eq_true.mp hs f hf)
    refine ⟨_, Draft.notes_literals h T, ?_⟩
    simp [SectionKind.result, withDefault, Draft.new, hsame]
  | goal h => exact ⟨_, Draft.notes_goal h T, rfl⟩

end PlanLang
