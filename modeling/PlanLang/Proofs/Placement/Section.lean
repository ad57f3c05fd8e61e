import PlanLang.Proofs.Placement.Reader
import PlanLang.Section

/-!
# Where the errors of sections point

The readers of types, typed lists, formulas and sections are made of readers that point at the token
they report.  Only the keyword of the parameters of an action is missed at the token before.
-/

namespace PlanLang

namespace Reader

variable {late : List (List String)} {ts : List Token} {b : Bool}

/-! ### Types and typed lists -/

theorem places_named_expect (r : Role) (p : Token → Bool) (options : List String) :
  Places late ts b (do Reader.named r (← Reader.expect p options)) true
  := Places.expect_bind fun t _ => Places.named r t

theorem places_type :
  Places late ts b typeAnnotation true
  := by
  apply Places.accept_bind
  · intro t
    apply Places.named
  · apply Places.expect_bind
    intro _ _
    apply Places.expect_bind
    intro _ _
    apply Places.within
    apply Places.expect_bind
    intro t _
    exact (Places.named .type t).bind fun _ => (places_named_expect _ _ _).repeated

theorem places_typedGroup (kind : TokenKind) (r : Role) (g : Construct) :
  Places late ts b (typedGroup kind r g) true
  := by
  apply Places.run_bind
  · exact (Places.expect _ _).bind fun _ => Places.pure ()
  · intro t us
    apply Places.ite_found
    · apply Places.within
      apply (Places.allNamed _ _).bind
      intro _
      exact (Places.report _).bind fun _ => places_type
    · apply Places.allNamed

theorem places_typedList (kind : TokenKind) (r : Role) (g : Construct) :
  Places late ts b (typedList kind r g) true
  := (places_typedGroup kind r g).repeated

theorem places_variableList :
  Places late ts b variableList true
  := places_typedList _ _ _

/-! ### Terms and atoms -/

theorem places_term :
  Places late ts b term true
  := by
  apply Places.accept_bind
  · intro t
    apply Places.named
  · apply places_named_expect

theorem places_groundTerm :
  Places late ts b groundTerm true
  := places_named_expect _ _ _

theorem places_atom {argument : Reader Unit} (h : Places late ts true argument true) :
  Places late ts b (atom argument) true
  := by
  apply Places.expect_bind
  intro t _
  apply Places.within
  exact (Places.named .predicate t).bind fun _ => h.repeated

theorem places_negatedAtom {argument : Reader Unit} (h : Places late ts true argument true) :
  Places late ts b (negatedAtom argument) true
  := by
  apply Places.within
  apply Places.opening.bind
  intro _
  exact (places_atom h).bind fun _ => Places.closing

theorem places_universal {body : Reader Unit} (h : Places late ts true body true) :
  Places late ts b (universal body) true
  := by
  apply Places.within
  apply Places.opening.bind
  intro _
  apply places_variableList.bind
  intro _
  exact h.bind fun _ => Places.closing

/-! ### Goals -/

theorem places_goalContents {goal : Reader Unit} (h : Places late ts true goal true) :
  Places late ts true (goalContents goal) true
  := by
  apply Places.ite_found
  · apply (Places.report _).bind
    intro _
    apply Places.within
    apply places_term.bind
    intro _
    exact places_term.bind fun _ => Places.closing
  apply Places.ite_found
  · apply Places.within
    apply h.repeated
  apply Places.ite_found
  · apply Places.within
    exact h.bind fun _ => Places.closing
  apply Places.ite_found
  · exact (Places.report _).bind fun _ => places_universal h
  exact (Places.refuse _).bind fun _ => places_atom places_term

theorem places_goal :
  Places late ts b goal true
  := Places.nested fun _ => places_goalContents

/-! ### Effects -/

theorem places_literalContents :
  Places late ts b literalContents true
  := by
  apply Places.ite_found
  · exact places_negatedAtom places_term
  · exact (Places.refuse _).bind fun _ => places_atom places_term

theorem places_conditionalEffect :
  Places late ts b conditionalEffect true
  := by
  apply Places.opening.bind
  intro _
  apply Places.ite_found
  · apply Places.within
    have hliteral : Places late ts true (do Reader.opening; literalContents) true :=
      Places.opening.bind fun _ => places_literalContents
    exact hliteral.repeated
  · exact places_literalContents

theorem places_effectContents {effect : Reader Unit} (h : Places late ts true effect true) :
  Places late ts true (effectContents effect) true
  := by
  apply Places.ite_found
  · apply Places.within
    apply h.repeated
  apply Places.ite_found
  · exact (Places.report _).bind fun _ => places_universal h
  apply Places.ite_found
  · apply (Places.report _).bind
    intro _
    apply Places.within
    apply places_goal.bind
    intro _
    exact places_conditionalEffect.bind fun _ => Places.closing
  exact places_literalContents

theorem places_effect :
  Places late ts b effect true
  := Places.nested fun _ => places_effectContents

theorem places_orEmpty {r : Reader Unit} (h : Places late ts b r true) :
  Places late ts b (orEmpty r) b
  := by
  apply Places.acceptEmptyList.bind
  intro found
  cases found with
  | true => exact Places.pure ()
  | false => exact h.of_true

/-! ### The parts of sections -/

theorem places_predicate :
  Places late ts b predicate true
  := by
  apply Places.expect_bind
  intro _ _
  apply Places.expect_bind
  intro t _
  apply Places.within
  apply Places.within
  exact (Places.named .predicate t).bind fun _ => places_variableList

theorem places_initLiteral :
  Places late ts b initLiteral true
  := by
  apply Places.expect_bind
  intro _ _
  apply Places.within
  apply Places.ite_found
  · exact places_negatedAtom places_groundTerm
  · exact places_atom places_groundTerm

theorem places_introducedBy (word : String) (part : Part) {r : Reader Unit}
    (h : Places late ts true r true) :
  Places late ts true (introducedBy word (Reader.within (.part part) (orEmpty r))) true
  := by
  apply Places.ite_found
  · exact (places_orEmpty h).within _
  · exact Places.pure ()

theorem places_action (hlate : [":parameters"] ∈ late) :
  Places late ts b action true
  := by
  apply Places.expect_bind
  intro name _
  apply Places.expectAfter_bind hlate
  intro _
  apply Places.opening.bind
  intro _
  apply (places_variableList.within _).bind
  intro _
  apply (places_introducedBy ":precondition" _ places_goal).bind
  intro _
  apply (places_introducedBy ":effect" _ places_effect).bind
  intro _
  exact (Places.expect _ _).bind fun _ => Places.pure name

end Reader

/-- Where the errors of a section point: that the parameters of an action are missing is said at the
token before. -/
theorem SectionKind.places_reader (k : SectionKind) {late : List (List String)} {ts : List Token}
    (hlate : k = .action → [":parameters"] ∈ late) :
  Reader.Places late ts false k.reader true
  := by
  cases k with
  | types => exact ((Reader.places_typedList _ _ _).within _).bind fun _ => .pure _
  | constants => exact ((Reader.places_typedList _ _ _).within _).bind fun _ => .pure _
  | predicates => exact Reader.places_predicate.repeated.bind fun _ => .pure _
  | action => exact (Reader.places_action (hlate rfl)).bind fun _ => .pure _
  | objects => exact ((Reader.places_typedList _ _ _).within _).bind fun _ => .pure _
  | init => exact Reader.places_initLiteral.repeated.bind fun _ => .pure _
  | goal =>
    have hgoal : Reader.Places late ts false (do Reader.orEmpty Reader.goal; Reader.closing) true :=
      (Reader.places_orEmpty Reader.places_goal).bind fun _ => .closing
    exact (hgoal.within _).bind fun _ => .pure _

end PlanLang
