import Mathlib
import PlanLang.Proofs.Description
import PlanLang.Proofs.Section.Value

/-!
# Constructs that are not covered

Some words begin goals that are not covered, and others begin effects that are not covered.  No atom
of an accepted description is called by such a word where it stands among goals, or among effects
without a negation.
-/

namespace PlanLang

/-! ### Atoms in their places -/

/-- An atom of a formula, where it stands, and whether a negation stands in front of it. -/
structure Formula.Occurrence where
  place : Formula.Place
  negated : Bool
  atom : Atom
deriving DecidableEq

namespace Formula

mutual

/-- The atoms of a formula that stands at a place, negated or not. -/
def occurrences (place : Place) (negated : Bool) : Formula → List Occurrence
  | atom a => [⟨place, negated, a⟩]
  | negation f => occurrences place true f
  | conjunction fs => occurrencesAll place negated fs
  | equality _ _ => []
  | universal _ f => occurrences place negated f
  | conditional c e => occurrences .goal false c ++ occurrences .effect negated e

/-- The atoms of formulas that stand at a place, negated or not. -/
def occurrencesAll (place : Place) (negated : Bool) : List Formula → List Occurrence
  | [] => []
  | f :: fs => occurrences place negated f ++ occurrencesAll place negated fs

end

mutual

/-- The atoms of a formula do not depend on the types of its bound variables. -/
theorem occurrences_withDefault (T : Option Ty) (place : Place) (negated : Bool) :
  ∀ f : Formula, (f.withDefault T).occurrences place negated = f.occurrences place negated
  | .atom _ => rfl
  | .negation f => by
      rw [withDefault, occurrences, occurrences, occurrences_withDefault T place true f]
  | .conjunction fs => by
      rw [withDefault, occurrences, occurrences, occurrencesAll_withDefault T place negated fs]
  | .equality _ _ => rfl
  | .universal _ f => by
      rw [withDefault, occurrences, occurrences, occurrences_withDefault T place negated f]
  | .conditional c e => by
      rw [withDefault, occurrences, occurrences, occurrences_withDefault T .goal false c,
        occurrences_withDefault T .effect negated e]

theorem occurrencesAll_withDefault (T : Option Ty) (place : Place) (negated : Bool) :
  ∀ fs : List Formula,
    occurrencesAll place negated (withDefaultAll T fs) = occurrencesAll place negated fs
  | [] => rfl
  | f :: fs => by
      rw [withDefaultAll, occurrencesAll, occurrencesAll, occurrences_withDefault T place negated f,
        occurrencesAll_withDefault T place negated fs]

end

/-- No word that begins a goal that is not covered is the name of an atom among goals, and no word
that begins an effect that is not covered is that of an atom among effects without a negation. -/
structure Occurrence.IsCovered (x : Occurrence) : Prop where
  goal : x.place = .goal → x.atom.name ∉ Reader.unsupportedGoals
  effect : x.place = .effect → x.negated = false → x.atom.name ∉ Reader.unsupportedEffects

theorem isCovered_negated (a : Atom) :
  Occurrence.IsCovered ⟨.effect, true, a⟩
  := ⟨nofun, nofun⟩

mutual

theorem isCovered_of_isGoal {negated : Bool} :
  ∀ {f : Formula}, f.isGoal → ∀ x ∈ f.occurrences .goal negated, x.IsCovered
  | .atom a, h => by
      rw [occurrences, List.forall_mem_singleton]
      rw [isGoal, decide_eq_true_eq, reservedInGoals, List.mem_append, not_or] at h
      exact ⟨fun _ => h.2, nofun⟩
  | .negation f, h => by
      rw [occurrences]
      exact isCovered_of_isGoal (f := f) h
  | .conjunction fs, h => by
      rw [occurrences]
      exact isCovered_of_areGoals h
  | .equality _ _, _ => by
      rw [occurrences]
      exact nofun
  | .universal _ f, h => by
      rw [occurrences]
      exact isCovered_of_isGoal (f := f) h

theorem isCovered_of_areGoals {negated : Bool} :
  ∀ {fs : List Formula}, areGoals fs → ∀ x ∈ occurrencesAll .goal negated fs, x.IsCovered
  | [], _ => nofun
  | f :: fs, h => by
      rw [areGoals, Bool.and_eq_true] at h
      rw [occurrencesAll, List.forall_mem_append]
      exact ⟨isCovered_of_isGoal h.1, isCovered_of_areGoals h.2⟩

end

/-- A literal is covered if its name is none of the words that begin an effect that is not, or if it
is negated. -/
theorem isCovered_of_isLiteralExcept {words : List String}
    (hwords : Reader.unsupportedEffects ⊆ words) {f : Formula} (h : f.isLiteralExcept words) :
  ∀ x ∈ f.occurrences .effect false, x.IsCovered
  := by
  unfold isLiteralExcept at h
  split at h
  · rename_i a
    rw [decide_eq_true_eq] at h
    rw [occurrences, List.forall_mem_singleton]
    exact ⟨nofun, fun _ _ hmem => h (hwords hmem)⟩
  · rw [occurrences, occurrences, List.forall_mem_singleton]
    apply isCovered_negated
  · contradiction

theorem isCovered_of_isConditionalEffect {f : Formula} (h : f.isConditionalEffect) :
  ∀ x ∈ f.occurrences .effect false, x.IsCovered
  := by
  unfold isConditionalEffect at h
  split at h
  · rename_i fs
    rw [occurrences]
    induction fs with
    | nil => exact nofun
    | cons f fs ih =>
      rw [List.all_cons, Bool.and_eq_true] at h
      rw [occurrencesAll, List.forall_mem_append]
      exact ⟨isCovered_of_isLiteralExcept (List.subset_cons_self _ _) h.1, ih h.2⟩
  · exact isCovered_of_isLiteralExcept (List.subset_append_right _ _) h

mutual

theorem isCovered_of_isEffect :
  ∀ {f : Formula}, f.isEffect → ∀ x ∈ f.occurrences .effect false, x.IsCovered
  | .atom a, h => by
      rw [occurrences, List.forall_mem_singleton]
      rw [isEffect, decide_eq_true_eq, reservedInEffects, List.mem_append, not_or] at h
      exact ⟨nofun, fun _ _ => h.2⟩
  | .negation (.atom a), _ => by
      rw [occurrences, occurrences, List.forall_mem_singleton]
      apply isCovered_negated
  | .conjunction fs, h => by
      rw [occurrences]
      exact isCovered_of_areEffects h
  | .universal _ f, h => by
      rw [occurrences]
      exact isCovered_of_isEffect (f := f) h
  | .conditional c e, h => by
      rw [isEffect, Bool.and_eq_true] at h
      rw [occurrences, List.forall_mem_append]
      exact ⟨isCovered_of_isGoal h.1, isCovered_of_isConditionalEffect h.2⟩

theorem isCovered_of_areEffects :
  ∀ {fs : List Formula}, areEffects fs → ∀ x ∈ occurrencesAll .effect false fs, x.IsCovered
  | [], _ => nofun
  | f :: fs, h => by
      rw [areEffects, Bool.and_eq_true] at h
      rw [occurrencesAll, List.forall_mem_append]
      exact ⟨isCovered_of_isEffect h.1, isCovered_of_areEffects h.2⟩

end

end Formula

/-! ### Sections -/

/-- The atoms of preconditions and goals and those of effects are covered. -/
def Section.IsCovered : Section → Prop
  | action a =>
    (∀ f ∈ a.precondition, ∀ x ∈ f.occurrences .goal false, x.IsCovered) ∧
      ∀ f ∈ a.effect, ∀ x ∈ f.occurrences .effect false, x.IsCovered
  | goal f => ∀ g ∈ f, ∀ x ∈ g.occurrences .goal false, x.IsCovered
  | _ => True

theorem Section.isCovered_of_hasGrammar {s : Section} (h : s.hasGrammar) :
  s.IsCovered
  := by
  cases s with
  | action a =>
    rw [hasGrammar, Bool.and_eq_true, Option.all_eq_true, Option.all_eq_true] at h
    exact ⟨fun f hf => Formula.isCovered_of_isGoal (h.1 f hf),
      fun f hf => Formula.isCovered_of_isEffect (h.2 f hf)⟩
  | goal f =>
    rw [hasGrammar, Option.all_eq_true] at h
    exact fun g hg => Formula.isCovered_of_isGoal (h g hg)
  | _ => trivial

/-- What is covered does not depend on a default type. -/
theorem Section.IsCovered.withDefault {s : Section} (h : s.IsCovered) (T : Option Ty) :
  (s.withDefault T).IsCovered
  := by
  have hmap : ∀ {f : Option Formula} {place : Formula.Place},
      (∀ g ∈ f, ∀ x ∈ g.occurrences place false, x.IsCovered) →
        ∀ g ∈ f.map (Formula.withDefault T), ∀ x ∈ g.occurrences place false, x.IsCovered := by
    intro f place hf g hg
    obtain ⟨g', hg', rfl⟩ := Option.map_eq_some_iff.mp hg
    rw [Formula.occurrences_withDefault]
    exact hf g' hg'
  cases s with
  | action a => exact ⟨hmap h.1, hmap h.2⟩
  | goal f => exact hmap h
  | _ => trivial

theorem SectionKind.isCovered_of_read {k : SectionKind} {gate : Gate} {T : Option Ty}
    {tokens : List Token} {s : Section} {c : Cursor} (h : k.read gate T tokens = .ok (s, c)) :
  s.IsCovered
  := by
  obtain ⟨_, s', _, rfl, -, -, hgrammar, -, -⟩ := exists_report_of_read h
  exact (Section.isCovered_of_hasGrammar hgrammar).withDefault T

theorem Outline.isCovered_of_read {o : Outline} {gate : Gate} {T : Option Ty} {ss : List Section}
    (h : o.read gate T = .ok ss) :
  ∀ s ∈ ss, s.IsCovered
  := by
  have hsections := forall₂_of_read h
  clear h
  generalize o.sections = ps at hsections
  induction hsections with
  | nil => exact nofun
  | cons hs _ ih =>
    obtain ⟨c, hread⟩ := hs
    rw [List.forall_mem_cons]
    exact ⟨SectionKind.isCovered_of_read hread, ih⟩

/-! ### Descriptions -/

/-- The preconditions, effects and goals of an accepted description have no atoms that are called by
words of what is not covered: among goals, which the conditions of effects are too, those that begin
other goals, and among effects without a negation, those that begin other effects. -/
theorem parse_covered (T : Option Ty) (source : String) :
  (∀ d, Domain.parse T source = .ok d → ∀ a ∈ d.actions,
    (∀ f ∈ a.precondition, ∀ x ∈ f.occurrences .goal false, x.IsCovered) ∧
      ∀ f ∈ a.effect, ∀ x ∈ f.occurrences .effect false, x.IsCovered) ∧
  ∀ p, Problem.parse T source = .ok p →
    ∀ f ∈ p.goal, ∀ x ∈ f.occurrences .goal false, x.IsCovered
  := by
  constructor
  · intro d h a ha
    obtain ⟨_, _, _, ss, -, hread, rfl⟩ := Domain.exists_of_ofTokens h
    obtain ⟨s, hs, ha⟩ := List.mem_flatMap.mp ha
    have hcovered := Outline.isCovered_of_read hread s hs
    cases s with
    | action a' =>
      obtain rfl := List.mem_singleton.mp ha
      exact hcovered
    | _ => contradiction
  · intro p h f hf
    obtain ⟨_, _, _, _, ss, -, hread, rfl⟩ := Problem.exists_of_ofTokens h
    obtain ⟨s, hs, hf⟩ := List.exists_of_findSome?_eq_some hf
    have hcovered := Outline.isCovered_of_read hread s hs
    cases s with
    | goal f' => exact hcovered f hf
    | _ => contradiction

/-- An effect with a condition. -/
theorem parse_covered_when :
  let source := "(define (domain d) (:requirements :adl) " ++
    "(:action a :parameters () :effect (when (not (p)) (not (q)))))"
  ∃ d, Domain.parse none source = .ok d ∧
    d.actions.map (fun a => (a.effect.map (Formula.occurrences .effect false))) =
      [some [⟨.goal, true, ⟨"p", []⟩⟩, ⟨.effect, true, ⟨"q", []⟩⟩]] ∧
    ∀ a ∈ d.actions, (∀ f ∈ a.precondition, ∀ x ∈ f.occurrences .goal false, x.IsCovered) ∧
      ∀ f ∈ a.effect, ∀ x ∈ f.occurrences .effect false, x.IsCovered
  := by
  intro source
  have hparse : (Domain.parse none ("(define (domain d) (:requirements :adl) " ++
      "(:action a :parameters () :effect (when (not (p)) (not (q)))))")).map
        (·.actions.map fun a => (a.effect.map (Formula.occurrences .effect false)))
      = .ok [some [⟨.goal, true, ⟨"p", []⟩⟩, ⟨.effect, true, ⟨"q", []⟩⟩]] := by
    cbv
  cases h : Domain.parse none source with
  | error es =>
    rw [h] at hparse
    contradiction
  | ok d =>
    rw [h] at hparse
    exact ⟨d, rfl, Except.ok.inj hparse, (parse_covered none source).1 d h⟩

/-- An initial state and effects may have atoms that are called by words of what is not covered: all
of them in an initial state, those that begin goals among effects, and all of them behind a
negation. -/
theorem parse_not_covered :
  (Problem.parse none "(define (problem p) (:domain d) (:init (or a b)))").map Problem.init
    = .ok [.atom ⟨"or", [.const ⟨"a", none⟩, .const ⟨"b", none⟩]⟩] ∧
  (Domain.parse none ("(define (domain d) (:action a :parameters (?x) " ++
    ":effect (and (exists ?x) (not (increase ?x)))))")).map (·.actions.map Action.effect)
    = .ok [some (.conjunction [.atom ⟨"exists", [.var ⟨"x", none⟩]⟩,
        .negation (.atom ⟨"increase", [.var ⟨"x", none⟩]⟩)])]
  := by
  constructor <;> cbv

end PlanLang
