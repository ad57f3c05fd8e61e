import PlanLang.Proofs.Wording.Reader
import PlanLang.Section

/-!
# Sections and alike tokens

A section is read from the kinds of its tokens and the words that they are.  What it declares is the
same for tokens that are alike, but for the place where the name of an action stands.
-/

namespace PlanLang

namespace Reader

variable {near : Position → Position → Prop}

/-! ### Typed lists -/

end Reader

/-! ### Sections -/

/-- Two actions are the same but for the places of their names, which are related. -/
structure Action.Alike (near : Position → Position → Prop) (a a' : Action) : Prop where
  name : a.name = a'.name
  position : near a.position a'.position
  parameters : a.parameters = a'.parameters
  precondition : a.precondition = a'.precondition
  effect : a.effect = a'.effect

/-- Two sections declare the same, and actions that are alike. -/
inductive Section.Alike (near : Position → Position → Prop) : Section → Section → Prop where
  | types (ds : List TypeDeclaration) : Alike near (.types ds) (.types ds)
  | constants (cs : List Constant) : Alike near (.constants cs) (.constants cs)
  | predicates (as : List Atom) : Alike near (.predicates as) (.predicates as)
  | action {a a' : Action} (h : a.Alike near a') : Alike near (.action a) (.action a')
  | objects (cs : List Constant) : Alike near (.objects cs) (.objects cs)
  | init (fs : List Formula) : Alike near (.init fs) (.init fs)
  | goal (f : Option Formula) : Alike near (.goal f) (.goal f)

variable {near : Position → Position → Prop}

/-- Reports that are alike lead to the same draft, or to errors that are alike. -/
theorem Draft.follow_alike (gate : Gate) {steps steps' : List (Position × Step)}
    (h : List.Forall₂ (Step.Alike near) steps steps') (d : Draft) :
  Corresponds (SyntaxError.Alike near) (· = ·) (d.follow gate steps) (d.follow gate steps')
  := by
  induction h generalizing d with
  | nil => exact .ok rfl
  | @cons s s' steps steps' hs hsteps ih =>
    obtain ⟨p, step⟩ := s
    obtain ⟨p', step'⟩ := s'
    obtain ⟨hp, rfl⟩ : near p p' ∧ step = step' := ⟨hs.position, hs.step⟩
    cases step with
    | need r what =>
      rw [follow, follow]
      by_cases hr : gate.allows r
      · rw [if_pos hr, if_pos hr]
        apply ih
      · rw [if_neg hr, if_neg hr]
        exact .error ⟨hp, .missingRequirement r what⟩
    | event e =>
      rw [follow, follow]
      cases d.onEvent e with
      | ok _ d => exact ih d
      | error error _ => exact .error ⟨hp, .construct error⟩

/-- What is read from tokens that are alike corresponds, and so does the draft of the report. -/
theorem Reader.Alike.draft {α : Type} {R : α → α → Prop} {r r' : Reader α}
    (h : Alike near R r r') (gate : Gate) (T : Option Ty) (hstart : near .start .start)
    {ts ts' : List Token} (hts : List.Forall₂ (Token.Alike near) ts ts') :
  Corresponds (SyntaxError.Alike near)
    (fun x x' => R x.1 x'.1 ∧ x.2.1 = x'.2.1 ∧ x.2.2.Alike near x'.2.2)
    (r.draft gate T ts) (r'.draft gate T ts')
  := by
  have hcursor : (Cursor.start ts).Alike near (Cursor.start ts') := ⟨hts, hstart⟩
  obtain ⟨hsteps, hresult⟩ := h hcursor
  apply (Draft.follow_alike gate hsteps _).bind
  rintro d _ rfl
  apply hresult.bind
  rintro ⟨a, c⟩ ⟨a', c'⟩ ⟨ha, hc⟩
  exact .ok ⟨ha, rfl, hc⟩

end PlanLang
