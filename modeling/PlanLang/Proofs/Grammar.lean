import PlanLang.Proofs.Description
import PlanLang.Proofs.Outline.Order
import PlanLang.Proofs.Section.Grammar

/-!
# Descriptions of the grammar

Sections are read each in its place, and other than actions there is at most one section of a kind.
So what is read of a description is what the grammar allows: its formulas are goals, effects and
literals where these belong, its names are words in lower case, and its lists can be written as
typed lists.
-/

namespace PlanLang

/-! ### The sections of an outline -/

namespace Outline

/-- The sections of a description are of the grammar, each of the kind that its heading
announces. -/
theorem isGrammatical_of_read {o : Outline} {gate : Gate} {body : List Token}
    (hspans : Spans body o.sections)
    (hwords : ∀ t ∈ body, t.kind = .name ∨ t.kind = .var → isLowerWord t.name) {ss : List Section}
    (h : o.read gate none = .ok ss) :
  (∀ s ∈ ss, s.IsGrammatical) ∧ ss.map Section.kind = o.sections.map Prod.fst
  := by
  have hsections := forall₂_of_read h
  have hread : ∀ p ∈ o.sections, ∀ s c, SectionKind.read p.1 gate none p.2 = .ok (s, c) →
      s.IsGrammatical ∧ s.kind = p.1 := by
    rintro ⟨k, ts⟩ hmem s c hs
    obtain ⟨own, rest, rfl, hsubset, hown⟩ := hspans.exists_own k ts hmem
    apply SectionKind.isGrammatical_of_read hown _ hs
    intro t ht
    apply hwords t (hsubset ht)
  clear h
  generalize o.sections = ps at hsections hread ⊢
  induction hsections with
  | nil => exact ⟨nofun, rfl⟩
  | @cons p s ps ss hp _ ih =>
    rw [List.forall_mem_cons] at hread
    obtain ⟨c, hp⟩ := hp
    obtain ⟨hs, hkind⟩ := hread.1 s c hp
    obtain ⟨hss, hkinds⟩ := ih hread.2
    rw [List.forall_mem_cons, List.map_cons, List.map_cons, hkind, hkinds]
    exact ⟨⟨hs, hss⟩, rfl⟩

end Outline

/-! ### Descriptions -/

/-- If in a list only one item at most has a part that is not empty, then this is the part of the
whole list. -/
theorem flatMap_of_pairwise {α β : Type} {f : α → List β} {P : List β → Prop} (hnil : P [])
    {as : List α} (h : ∀ a ∈ as, P (f a)) (hone : as.Pairwise fun a a' => f a = [] ∨ f a' = []) :
  P (as.flatMap f)
  := by
  induction as with
  | nil => exact hnil
  | cons a as ih =>
    rw [List.forall_mem_cons] at h
    rw [List.pairwise_cons] at hone
    rw [List.flatMap_cons]
    cases hf : f a with
    | nil => exact ih h.2 hone.2
    | cons b bs =>
      have hrest : as.flatMap f = [] := by
        rw [List.flatMap_eq_nil_iff]
        intro a' ha'
        rcases hone.1 a' ha' with hempty | hempty
        · rw [hf] at hempty
          contradiction
        · exact hempty
      rw [hrest, List.append_nil, ← hf]
      exact h.1

/-- The constants of the sections of a kind other than actions are those of one section. -/
theorem Constant.areListed_flatMap {p q : String → Bool} {k : SectionKind} (hk : k ≠ .action)
    {f : Section → List Constant} (hf : ∀ s, f s = [] ∨ s.kind = k) {ss : List Section}
    (h : ∀ s ∈ ss, areListed p q (f s))
    (hone : (ss.map Section.kind).Pairwise fun k k' => k = k' → k = .action) :
  areListed p q (ss.flatMap f)
  := by
  apply flatMap_of_pairwise (P := (areListed p q ·)) rfl h
  rw [List.pairwise_map] at hone
  apply hone.imp
  intro s s' hss
  rcases hf s with hempty | hkind
  · exact .inl hempty
  rcases hf s' with hempty | hkind'
  · exact .inr hempty
  rw [hkind, hkind'] at hss
  exact absurd (hss rfl) hk

/-- The names in the domain are words in lower case, items with a type come first in its lists, and
preconditions and effects are what they can be. -/
structure Domain.IsGrammatical (d : Domain) : Prop where
  name : isLowerWord d.name
  types : d.types.all (TypeDeclaration.isNamed isLowerWord)
  constants : Constant.areListed isLowerWord isLowerWord d.constants
  predicates : ∀ a ∈ d.predicates, a.IsDeclaration
  actions : ∀ a ∈ d.actions, a.IsGrammatical

/-- The names in the problem are words in lower case, items with a type come first in its lists, the
initial state consists of literals about constants, and the goal is what it can be. -/
structure Problem.IsGrammatical (p : Problem) : Prop where
  name : isLowerWord p.name
  domain : isLowerWord p.domain
  objects : Constant.areListed isLowerWord isLowerWord p.objects
  init : ∀ f ∈ p.init, f.isInitLiteral ∧ f.isRegular isLowerWord isLowerWord
  goal : ∀ f ∈ p.goal, f.isGoal ∧ f.isRegular isLowerWord isLowerWord

theorem Domain.isGrammatical_ofSections {name : String} (hname : isLowerWord name)
    (requirements : Requirements) {ss : List Section} (h : ∀ s ∈ ss, s.IsGrammatical)
    (hone : (ss.map Section.kind).Pairwise fun k k' => k = k' → k = .action) :
  (ofSections name requirements ss).IsGrammatical
  where
  name := hname
  types := by
    rw [ofSections, List.all_flatMap, List.all_eq_true]
    intro s hs
    have hgrammatical := h s hs
    cases s with
    | types ds => exact hgrammatical
    | _ => rfl
  constants := by
    have hkind : ∀ s : Section, s.declaredConstants = [] ∨ s.kind = .constants := by
      intro s
      cases s <;> simp [Section.declaredConstants, Section.kind]
    have hlisted : ∀ s ∈ ss, Constant.areListed isLowerWord isLowerWord s.declaredConstants := by
      intro s hs
      have hgrammatical := h s hs
      cases s with
      | constants cs => exact hgrammatical
      | _ => rfl
    exact Constant.areListed_flatMap (by decide) hkind hlisted hone
  predicates := by
    intro a ha
    obtain ⟨s, hs, ha⟩ := List.mem_flatMap.mp ha
    have hgrammatical := h s hs
    cases s with
    | predicates as => exact hgrammatical a ha
    | _ => contradiction
  actions := by
    intro a ha
    obtain ⟨s, hs, ha⟩ := List.mem_flatMap.mp ha
    have hgrammatical := h s hs
    cases s with
    | action a' =>
      obtain rfl := List.mem_singleton.mp ha
      exact hgrammatical
    | _ => contradiction

theorem Problem.isGrammatical_ofSections {name domain : String} (hname : isLowerWord name)
    (hdomain : isLowerWord domain) (requirements : Requirements) {ss : List Section}
    (h : ∀ s ∈ ss, s.IsGrammatical)
    (hone : (ss.map Section.kind).Pairwise fun k k' => k = k' → k = .action) :
  (ofSections name domain requirements ss).IsGrammatical
  where
  name := hname
  domain := hdomain
  objects := by
    have hkind : ∀ s : Section, s.declaredObjects = [] ∨ s.kind = .objects := by
      intro s
      cases s <;> simp [Section.declaredObjects, Section.kind]
    have hlisted : ∀ s ∈ ss, Constant.areListed isLowerWord isLowerWord s.declaredObjects := by
      intro s hs
      have hgrammatical := h s hs
      cases s with
      | objects cs => exact hgrammatical
      | _ => rfl
    exact Constant.areListed_flatMap (by decide) hkind hlisted hone
  init := by
    intro f hf
    obtain ⟨s, hs, hf⟩ := List.mem_flatMap.mp hf
    have hgrammatical := h s hs
    cases s with
    | init fs => exact hgrammatical f hf
    | _ => contradiction
  goal := by
    intro f hf
    obtain ⟨s, hs, hf⟩ := List.exists_of_findSome?_eq_some hf
    have hgrammatical := h s hs
    cases s with
    | goal f' => exact hgrammatical f hf
    | _ => contradiction

/-! ### Reading descriptions -/

namespace Domain

theorem isGrammatical_of_ofTokens {tokens : List Token}
    (hwords : ∀ t ∈ tokens, t.kind = .name ∨ t.kind = .var → isLowerWord t.name) {d : Domain}
    (h : ofTokens none tokens = .ok d) :
  d.IsGrammatical
  := by
  obtain ⟨name, o, c, ss, houtline, hread, rfl⟩ := exists_of_ofTokens h
  obtain ⟨head, c₁, rfl, -, ⟨hname, hkind⟩, hbody⟩ := exists_of_outline houtline
  rw [List.forall_mem_append] at hwords
  obtain ⟨hss, hkinds⟩ :=
    Outline.isGrammatical_of_read (Outline.spans_of_body hbody) hwords.2 hread
  apply isGrammatical_ofSections (hwords.1 name hname (.inl hkind)) _ hss
  rw [hkinds]
  apply Outline.pairwise_of_body (by decide) hbody

end Domain

namespace Problem

theorem isGrammatical_of_ofTokens {tokens : List Token}
    (hwords : ∀ t ∈ tokens, t.kind = .name ∨ t.kind = .var → isLowerWord t.name) {p : Problem}
    (h : ofTokens none tokens = .ok p) :
  p.IsGrammatical
  := by
  obtain ⟨name, domain, o, c, ss, houtline, hread, rfl⟩ := exists_of_ofTokens h
  obtain ⟨head, c₁, rfl, -, ⟨hname, hkind⟩, ⟨hdomain, hkind'⟩, hbody⟩ :=
    exists_of_outline houtline
  rw [List.forall_mem_append] at hwords
  obtain ⟨hss, hkinds⟩ :=
    Outline.isGrammatical_of_read (Outline.spans_of_body hbody) hwords.2 hread
  apply isGrammatical_ofSections (hwords.1 name hname (.inl hkind))
    (hwords.1 domain hdomain (.inl hkind')) _ hss
  rw [hkinds]
  apply Outline.pairwise_of_body (by decide) hbody

end Problem

/-- Whatever source is read as a domain or as a problem, what is read of it is of the grammar:
preconditions and goals have no conditionals, effects have no equalities outside of conditions, and
no atom is called by a word that begins something else. -/
theorem parse_grammatical (source : String) :
  (∀ d, Domain.parse none source = .ok d → d.IsGrammatical) ∧
    ∀ p, Problem.parse none source = .ok p → p.IsGrammatical
  := by
  have hwords : ∀ t ∈ tokenize source, t.kind = .name ∨ t.kind = .var → isLowerWord t.name :=
    fun t ht => t.isLowerWord_name ht
  exact ⟨fun d => Domain.isGrammatical_of_ofTokens hwords,
    fun p => Problem.isGrammatical_of_ofTokens hwords⟩

/-- An action with a bound variable and a condition, and a problem, written in upper and lower
case. -/
theorem parse_grammatical_ferry :
  (∃ d, Domain.parse none ("(define (domain Ferry) (:requirements :adl) (:action Sail " ++
      ":parameters (?X - port) :effect (forall (?y) (when (= ?x ?y) (At ?y)))))") = .ok d ∧
    d.actions.map Action.name = ["sail"] ∧ d.IsGrammatical) ∧
  ∃ p, Problem.parse none ("(define (problem P) (:domain Ferry) (:objects Kiel - port c) " ++
      "(:init (AT kiel)) (:goal (at c)))") = .ok p ∧
    p.objects.map Constant.name = ["kiel", "c"] ∧ p.IsGrammatical
  := by
  constructor
  · generalize hsource : "(define (domain Ferry) (:requirements :adl) (:action Sail " ++
      ":parameters (?X - port) :effect (forall (?y) (when (= ?x ?y) (At ?y)))))" = source
    have hparse : (Domain.parse none source).map (·.actions.map Action.name) = .ok ["sail"] := by
      rw [← hsource]
      cbv
    cases h : Domain.parse none source with
    | error es =>
      rw [h] at hparse
      contradiction
    | ok d =>
      rw [h] at hparse
      exact ⟨d, rfl, Except.ok.inj hparse, (parse_grammatical source).1 d h⟩
  · generalize hsource : "(define (problem P) (:domain Ferry) (:objects Kiel - port c) " ++
      "(:init (AT kiel)) (:goal (at c)))" = source
    have hparse : (Problem.parse none source).map (·.objects.map Constant.name)
        = .ok ["kiel", "c"] := by
      rw [← hsource]
      cbv
    cases h : Problem.parse none source with
    | error es =>
      rw [h] at hparse
      contradiction
    | ok p =>
      rw [h] at hparse
      exact ⟨p, rfl, Except.ok.inj hparse, (parse_grammatical source).2 p h⟩

end PlanLang
