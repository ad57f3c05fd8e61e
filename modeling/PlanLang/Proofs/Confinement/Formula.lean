import PlanLang.Proofs.Confinement.Reader
import PlanLang.Reader.Formula

/-!
# Typed lists and formulas within parentheses

The readers of types, typed lists and formulas are confined to the tokens up to the parenthesis
that closes what they are in.  A typed list and what follows a first word read that parenthesis, a
type, a term and a formula do not.
-/

namespace PlanLang

theorem Token.kind_of_isName {t : Token} {word : String} (h : t.isName word) :
  t.kind = .name
  := by
  rw [isName, Bool.and_eq_true] at h
  apply of_decide_eq_true h.1

theorem Token.kind_of_isKeyword {t : Token} {word : String} (h : t.isKeyword word) :
  t.kind = .keyword
  := by
  rw [isKeyword, Bool.and_eq_true] at h
  apply of_decide_eq_true h.1

namespace Reader

variable {ts : List Token} {M : Nat}

/-! ### Types and typed lists -/

theorem confined_expect_named (options : List String) (r : Role) :
  Confined ts M 1 (do named r (← expect (·.kind = .name) options))
    (do named r (← expect (·.kind = .name) options))
  := by
  intro N m c hN hc
  apply ConfinedAt.expect_bind (fun _ => of_decide_eq_true) hc
  intro t c ht hkind hc
  exact ConfinedAt.named ht (.inl (of_decide_eq_true hkind)) hc

theorem confined_type :
  Confined ts M 1 typeAnnotation typeAnnotation
  := by
  intro N m c hN hc
  apply ConfinedAt.accept_bind (fun _ => of_decide_eq_true) hc
  · intro t c ht hkind hc
    exact ConfinedAt.named ht (.inl (of_decide_eq_true hkind)) hc
  · apply ConfinedAt.expect_bind (fun _ => of_decide_eq_true) hc
    intro _ c _ _ hc
    apply ConfinedAt.expect_bind (fun _ => Token.kind_of_isName) hc.inside
    intro _ c _ _ hc
    apply ConfinedAt.within
    apply ConfinedAt.expect_bind (fun _ => of_decide_eq_true) hc.inside
    intro t c ht hkind hc
    apply ConfinedAt.named_bind ht (.inl (of_decide_eq_true hkind))
    apply (confined_expect_named _ _).repeated N (m + 1) c hN hc.inside

theorem confined_typedGroup {kind : TokenKind} (hkind : kind = .name ∨ kind = .var) (r : Role)
    (g : Construct) :
  Confined ts M 1 (typedGroup kind r g) (typedGroup kind r g)
  := by
  intro N m c hN hc
  apply ConfinedAt.run_bind hkind hc
  · have hnone : ∀ t : Token, false = true → t.kind = .name := nofun
    apply ConfinedAt.expect_bind hnone hc
    intro _ _ _ h
    contradiction
  · intro us c hus hne hc
    obtain ⟨t, us, rfl⟩ := List.exists_cons_of_ne_nil hne
    apply ConfinedAt.ite_found (fun _ => of_decide_eq_true) hc.inside
    · intro c hc
      apply ConfinedAt.within
      apply (ConfinedAt.allNamed (Q := fun _ c' => c' = c) hus rfl).bind
      rintro _ _ rfl
      apply ConfinedAt.report_bind (s := .need .typing "typed list") hc.last_mem
      apply confined_type N m _ hN hc.inside
    · exact ConfinedAt.allNamed hus hc

theorem confined_typedList {kind : TokenKind} (hkind : kind = .name ∨ kind = .var) (r : Role)
    (g : Construct) :
  Confined ts M 0 (typedList kind r g) (typedList kind r g)
  := (confined_typedGroup hkind r g).repeated

theorem confined_variableList :
  Confined ts M 0 variableList variableList
  := confined_typedList (.inr rfl) _ _

/-! ### Terms and atoms -/

theorem confined_term :
  Confined ts M 1 term term
  := by
  intro N m c hN hc
  apply ConfinedAt.accept_bind (fun _ => of_decide_eq_true) hc
  · intro t c ht hkind hc
    exact ConfinedAt.named ht (.inr (of_decide_eq_true hkind)) hc
  · apply confined_expect_named _ _ N m c hN hc

theorem confined_groundTerm :
  Confined ts M 1 groundTerm groundTerm
  := confined_expect_named _ _

theorem confined_atom {argument : Reader Unit} (h : Confined ts M 1 argument argument) :
  Confined ts M 0 (atom argument) (atom argument)
  := by
  intro N m c hN hc
  apply ConfinedAt.expect_bind (fun _ => of_decide_eq_true) hc
  intro t c ht hkind hc
  apply ConfinedAt.within
  apply ConfinedAt.named_bind ht (.inl (of_decide_eq_true hkind))
  apply h.repeated N m c hN hc.inside

theorem confined_negatedAtom {argument : Reader Unit} (h : Confined ts M 1 argument argument) :
  Confined ts M 0 (negatedAtom argument) (negatedAtom argument)
  := by
  intro N m c hN hc
  apply ConfinedAt.within
  apply ConfinedAt.opening_bind hc
  intro c hc
  apply (confined_atom h N (m + 1) c hN hc.inside).bind
  intro _ c hc
  apply ConfinedAt.closing hc.inside

theorem confined_universal {body body' : Reader Unit} (h : Confined ts M 1 body body') :
  Confined ts M 0 (universal body) (universal body')
  := by
  intro N m c hN hc
  apply ConfinedAt.within
  apply ConfinedAt.opening_bind hc
  intro c hc
  apply (confined_variableList N (m + 1) c hN hc.inside).bind
  intro _ c hc
  apply (h N m c hN hc.inside).bind
  intro _ c hc
  apply ConfinedAt.closing hc.inside

/-! ### Goals -/

theorem confined_goalContents {goal goal' : Reader Unit} (h : Confined ts M 1 goal goal') :
  Confined ts M 0 (goalContents goal) (goalContents goal')
  := by
  intro N m c hN hc
  apply ConfinedAt.ite_found (fun _ => of_decide_eq_true) hc
  · intro c hc
    apply ConfinedAt.report_bind (s := .need .equality "=") hc.last_mem
    apply ConfinedAt.within
    apply (confined_term N m c hN hc.inside).bind
    intro _ c hc
    apply (confined_term N m c hN hc.inside).bind
    intro _ c hc
    apply ConfinedAt.closing hc.inside
  apply ConfinedAt.ite_found (fun _ => Token.kind_of_isName) hc
  · intro c hc
    apply ConfinedAt.within
    apply h.repeated N m c hN hc.inside
  apply ConfinedAt.ite_found (fun _ => Token.kind_of_isName) hc
  · intro c hc
    apply ConfinedAt.within
    apply (h N m c hN hc.inside).bind
    intro _ c hc
    apply ConfinedAt.closing hc.inside
  apply ConfinedAt.ite_found (fun _ => Token.kind_of_isName) hc
  · intro c hc
    apply ConfinedAt.report_bind (s := .need .universalPreconditions "forall goal") hc.last_mem
    apply confined_universal h N m c hN hc.inside
  apply ConfinedAt.refuse_bind hc
  apply confined_atom confined_term N m c hN hc

theorem confined_goal :
  Confined ts M 1 goal goal
  := Confined.nested (fun _ _ _ => confined_goalContents) M

/-! ### Effects -/

theorem confined_literalContents :
  Confined ts M 0 literalContents literalContents
  := by
  intro N m c hN hc
  apply ConfinedAt.ite_found (fun _ => Token.kind_of_isName) hc
  · intro c hc
    apply confined_negatedAtom confined_term N m c hN hc.inside
  apply ConfinedAt.refuse_bind hc
  apply confined_atom confined_term N m c hN hc

theorem confined_conditionalEffect :
  Confined ts M 1 conditionalEffect conditionalEffect
  := by
  have hliteral : Confined ts M 1 (do opening; literalContents) (do opening; literalContents) := by
    intro N m c hN hc
    apply ConfinedAt.opening_bind hc
    intro c hc
    apply confined_literalContents N (m + 1) c hN hc.inside
  intro N m c hN hc
  apply ConfinedAt.opening_bind hc
  intro c hc
  apply ConfinedAt.ite_found (fun _ => Token.kind_of_isName) hc.inside
  · intro c hc
    apply ConfinedAt.within
    apply hliteral.repeated N (m + 1) c hN hc.inside
  · apply confined_literalContents N (m + 1) c hN hc.inside

theorem confined_effectContents {effect effect' : Reader Unit}
    (h : Confined ts M 1 effect effect') :
  Confined ts M 0 (effectContents effect) (effectContents effect')
  := by
  intro N m c hN hc
  apply ConfinedAt.ite_found (fun _ => Token.kind_of_isName) hc
  · intro c hc
    apply ConfinedAt.within
    apply h.repeated N m c hN hc.inside
  apply ConfinedAt.ite_found (fun _ => Token.kind_of_isName) hc
  · intro c hc
    apply ConfinedAt.report_bind (s := .need .conditionalEffects "forall effect") hc.last_mem
    apply confined_universal h N m c hN hc.inside
  apply ConfinedAt.ite_found (fun _ => Token.kind_of_isName) hc
  · intro c hc
    apply ConfinedAt.report_bind (s := .need .conditionalEffects "when effect") hc.last_mem
    apply ConfinedAt.within
    apply (confined_goal N m c hN hc.inside).bind
    intro _ c hc
    apply (confined_conditionalEffect N m c hN hc.inside).bind
    intro _ c hc
    apply ConfinedAt.closing hc.inside
  apply confined_literalContents N m c hN hc

theorem confined_effect :
  Confined ts M 1 effect effect
  := Confined.nested (fun _ _ _ => confined_effectContents) M

/-- A formula that may be left out is read, or an empty list in its place. -/
theorem confined_orEmpty {r : Reader Unit} (h : Confined ts M 1 r r) :
  Confined ts M 1 (orEmpty r) (orEmpty r)
  := by
  intro N m c hN hc
  apply ConfinedAt.acceptEmptyList_bind hc
  · intro c hc
    exact ConfinedAt.pure hc
  · apply h N m c hN hc

end Reader

end PlanLang
