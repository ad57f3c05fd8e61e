import PlanLang.Proofs.Formula.Grammar
import PlanLang.Proofs.Reader.TypedList
import PlanLang.Reader.Formula

/-!
# The reports of formulas

The reader of goals reports formulas that can be goals, and the reader of effects formulas that
can be effects.  The words that tell one form of formula from another are not names of the atoms
that are reported.  The requirements that are noted as needed are those that the formula needs
where it stands.
-/

open Computability

namespace PlanLang

namespace Reader

/-! ### Terms and atoms -/

/-- The reports of formulas at a place for which `p` holds. -/
def formulaReports (place : Formula.Place) (p : Formula → Bool) : Language Step :=
  {ss | ∃ f, p f ∧ Formula.Report f (Step.events ss) ∧ Step.needs ss = f.needs place}

theorem formulaReports_mono (place : Formula.Place) {p q : Formula → Bool} (h : ∀ f, p f → q f) :
  formulaReports place p ≤ formulaReports place q
  := by
  rintro ss ⟨f, hf, hss⟩
  exact ⟨f, h f hf, hss⟩

theorem exists_mem_formulaReports (place : Formula.Place) {p : Formula → Bool} {f : Formula}
    {es : List Event} (hp : p f) (h : f.Report es) (hneeds : f.needs place = ∅) :
  ∃ ss, ss ∈ formulaReports place p
  := ⟨es.map .event, f, hp, by rwa [Step.events_map_event], by rw [Step.needs_map_event, hneeds]⟩

/-- The reports of single terms for which `p` holds. -/
def termReports (p : Term → Bool) : Language Step :=
  {ss | (∃ t e, p t ∧ Term.Report t e ∧ Step.events ss = [e]) ∧ Step.needs ss = ∅}

/-- The reports of lists of terms for which `p` holds. -/
def termsReports (p : Term → Bool) : Language Step :=
  {ss | (∃ ts : List Term, ts.all p ∧ List.Forall₂ Term.Report ts (Step.events ss)) ∧
    Step.needs ss = ∅}

theorem kstar_termReports_le (p : Term → Bool) :
  (termReports p)∗ ≤ termsReports p
  := by
  apply kstar_le_of_mul_le_right
  · rintro _ rfl
    exact ⟨⟨[], rfl, .nil⟩, rfl⟩
  · rintro _ ⟨ss, ⟨⟨t, e, hp, ht, hss⟩, hneeds⟩, ss', ⟨⟨ts, hps, hts⟩, hneeds'⟩, rfl⟩
    constructor
    · use t :: ts
      rw [Step.events_append, hss, List.all_cons, hp, hps]
      exact ⟨rfl, .cons ht hts⟩
    · rw [Step.needs_append, hneeds, hneeds', Finset.union_empty]

theorem emits_term :
  term.Emits (termReports fun _ => true)
  := by
  intro c
  apply (silent_accept _).bindAt
  intro o c _
  cases o with
  | some t =>
    apply (emits_named .variable t c).mono
    rintro _ rfl
    exact ⟨⟨_, _, rfl, .var t.name, rfl⟩, rfl⟩
  | none =>
    apply (emits_expect_named _ _ .constant c).mono
    rintro _ ⟨name, rfl⟩
    exact ⟨⟨_, _, rfl, .const name, rfl⟩, rfl⟩

theorem emits_groundTerm :
  groundTerm.Emits (termReports Term.isConst)
  := by
  intro c
  apply (emits_expect_named _ _ .constant c).mono
  rintro _ ⟨name, rfl⟩
  exact ⟨⟨_, _, rfl, .const name, rfl⟩, rfl⟩

/-- A token that is read as expected is the next one and satisfies the condition. -/
theorem head?_of_expect {p : Token → Bool} {options : List String} {c c' : Cursor} {t : Token}
    (h : (expect p options c).2 = .ok (t, c')) :
  t ∈ c.rest.head? ∧ p t
  := by
  obtain ⟨rest, last⟩ := c
  cases rest with
  | nil => contradiction
  | cons s ts =>
    by_cases hs : p s
    · obtain ⟨rfl, -⟩ : s = t ∧ _ := by simpa [expect, hs] using h
      exact ⟨rfl, hs⟩
    · simp [expect, hs] at h

/-- A formula that is an atom about terms for which `p` holds, and whose name is not one of the
words. -/
def isAtomExcept (words : List String) (p : Term → Bool) : Formula → Bool
  | .atom a => a.name ∉ words && a.terms.all p
  | _ => false

/-- A formula that is the negation of an atom about terms for which `p` holds. -/
def isNegatedAtom (p : Term → Bool) : Formula → Bool
  | .negation f => isAtomExcept [] p f
  | _ => false

/-- An atom is reported whose name is not among the words that the next token is not. -/
theorem emitsAt_atom {argument : Reader Unit} {p : Term → Bool} (place : Formula.Place)
    (words : List String) {c : Cursor} (h : argument.Emits (termReports p))
    (hc : ∀ t ∈ c.rest.head?, t.kind = .name → t.name.toLower ∉ words) :
  (atom argument).EmitsAt c (formulaReports place (isAtomExcept words p))
  := by
  apply (silent_expect _ _).bindAt
  intro t c' hok
  obtain ⟨hhead, hkind⟩ := head?_of_expect hok
  refine (emits_within (L := only [.event (.name .predicate t.name)] * termsReports p)
    (.shape .atom) ?_ ?_ c').mono ?_
  · intro c
    apply EmitsAt.bind (emits_named .predicate t c)
    · intro _ c _
      apply (emits_repeated h c).mono (kstar_termReports_le p)
    · exact ⟨[], ⟨[], rfl, .nil⟩, rfl⟩
  · exact ⟨_, [_], rfl, [], ⟨⟨[], rfl, .nil⟩, rfl⟩, rfl⟩
  · rintro _ ⟨_, ⟨_, rfl, ss, ⟨⟨ts, hts, hss⟩, hneeds⟩, rfl⟩, rfl⟩
    refine ⟨.atom (.ofName t.name ts), ?_, ?_, ?_⟩
    · have hname := hc t hhead (of_decide_eq_true hkind)
      simpa [isAtomExcept, Atom.ofName, hname] using hts
    · rw [Step.events_enclosed]
      apply Formula.Report.atom t.name hss
    · rw [Step.needs_enclosed]
      exact hneeds

/-- What is read within a negation is negated. -/
theorem emits_negation {place : Formula.Place} {p q : Formula → Bool} {r : Reader Unit}
    (h : r.Emits (formulaReports place p)) (hp : ∃ ss, ss ∈ formulaReports place p)
    (hq : ∀ f, p f → q (.negation f)) :
  (within (.shape .negation) r).Emits (formulaReports place q)
  := by
  intro c
  apply (emits_within _ h hp c).mono
  rintro _ ⟨ss, ⟨f, hf, hss, hneeds⟩, rfl⟩
  refine ⟨.negation f, hq f hf, ?_, ?_⟩
  · rw [Step.events_enclosed]
    apply Formula.Report.negation hss
  · rw [Step.needs_enclosed, hneeds]
    rfl

theorem emits_negatedAtom {argument : Reader Unit} {p : Term → Bool} (place : Formula.Place)
    (h : argument.Emits (termReports p)) :
  (negatedAtom argument).Emits (formulaReports place (isNegatedAtom p))
  := by
  apply emits_negation (p := isAtomExcept [] p) _ _ fun _ hf => hf
  · intro c
    apply silent_opening.bindAt
    intro _ c _
    apply (emitsAt_atom place [] h _).bind_silent fun _ => silent_closing
    intro t _ _
    apply List.not_mem_nil
  · apply exists_mem_formulaReports place _ (Formula.Report.atom "" .nil) rfl
    simp [isAtomExcept, Atom.ofName]

/-! ### Words that are not names of atoms -/

/-- A name token that is not the given word names something else. -/
theorem name_ne_of_isName {t : Token} {word : String} (h : t.isName word = false)
    (hword : word.toLower = word) (hkind : t.kind = .name) :
  t.name.toLower ≠ word
  := by
  have hne : t.text.toLower ≠ word := by
    simpa [Token.isName, sameWord, hkind, hword] using h
  rw [Token.name, if_neg (by simp [hkind]), toLower_toLower]
  exact hne

/-- What is not refused is none of the words. -/
theorem isName_of_refuse {words : List String} {c c' : Cursor} {u : Unit}
    (h : (refuse words c).2 = .ok (u, c')) :
  c' = c ∧ ∀ t ∈ c.rest.head?, ∀ word ∈ words, t.isName word = false
  := by
  obtain ⟨rest, last⟩ := c
  cases rest with
  | nil =>
    cases h
    simp
  | cons s ts =>
    cases hfind : words.find? s.isName with
    | some word => simp [refuse, hfind] at h
    | none =>
      have hc : c' = ⟨s :: ts, last⟩ := by simpa [refuse, hfind, eq_comm] using h
      exact ⟨hc, by simpa using hfind⟩

/-- An atom that is read where none of the words is next, and none of the refused words. -/
theorem emitsAt_refuse_atom {argument : Reader Unit} {p : Term → Bool} (place : Formula.Place)
    (words refused : List String) {c : Cursor} (h : argument.Emits (termReports p))
    (hwords : ∀ t ∈ c.rest.head?, ∀ word ∈ words, t.isName word = false)
    (hlower : ∀ word ∈ words ++ refused, word.toLower = word) :
  (do refuse refused; atom argument).EmitsAt c
    (formulaReports place (isAtomExcept (words ++ refused) p))
  := by
  apply (silent_refuse refused).bindAt
  intro _ c' hok
  obtain ⟨rfl, hrefused⟩ := isName_of_refuse hok
  apply emitsAt_atom _ _ h
  intro t ht hkind hmem
  have hname : t.isName t.name.toLower = false := by
    rcases List.mem_append.mp hmem with hmem | hmem
    · apply hwords t ht _ hmem
    · apply hrefused t ht _ hmem
  apply name_ne_of_isName hname (hlower _ hmem) hkind rfl

/-! ### Goals -/

/-- A construct that needs a requirement: the need is noted, and what is within the construct is
reported. -/
theorem emits_need_within {r : Reader Unit} {L : Language Step} (req : Requirement)
    (what : String) (k : Construct) (h : r.Emits L) (hL : ∃ ss, ss ∈ L) :
  (do need req what; within k r).Emits
    {ss | ∃ ms ∈ L, Step.events ss = Event.within k (Step.events ms) ∧
      Step.needs ss = insert req (Step.needs ms)}
  := by
  intro c
  apply ((emits_within k h hL c).report_bind _).mono
  · rintro _ ⟨_, rfl, _, ⟨ms, hms, rfl⟩, rfl⟩
    exact ⟨ms, hms, Step.events_enclosed k ms, congrArg (insert req) (Step.needs_enclosed k ms)⟩
  · obtain ⟨ms, hms⟩ := hL
    exact ⟨_, ms, hms, rfl⟩

/-- What follows the word `forall` reports a universal formula. -/
theorem emits_universal (place : Formula.Place) (what : String) {p q : Formula → Bool}
    {body : Reader Unit} (hbody : body.Emits (formulaReports place p))
    (hp : ∃ ss, ss ∈ formulaReports place p) (hq : ∀ vs f, p f → q (.universal vs f)) :
  (do need place.universal what; universal body).Emits (formulaReports place q)
  := by
  intro c
  refine (emits_need_within (L := listReports .variable .typedList * formulaReports place p)
    _ _ (.shape .universal) ?_ ?_ c).mono ?_
  · intro c
    apply silent_opening.bindAt
    intro _ c _
    apply (emits_typedList _ _ _ c).bind _ hp
    intro _ c _
    apply (hbody c).bind_silent fun _ => silent_closing
  · obtain ⟨ss, hss⟩ := hp
    exact ⟨_, Language.append_mem_mul (nil_mem_listReports _ _) hss⟩
  · rintro _ ⟨_, ⟨ss, ⟨l, hl, hneeds⟩, ss', ⟨f, hf, hss', hneeds'⟩, rfl⟩, hevents, hneed⟩
    refine ⟨.universal l.toVariables f, hq _ f hf, ?_, ?_⟩
    · rw [hevents, Step.events_append]
      apply Formula.Report.universal hl hss'
    · rw [hneed, Step.needs_append, hneeds, hneeds', Formula.needs,
        TypedList.needs_toVariables hl.forall_ne_nil]

/-- Goals one after the other are the parts of a conjunction. -/
theorem kstar_formulaReports_le {place : Formula.Place} {p : Formula → Bool}
    {ps : List Formula → Bool} (hnil : ps []) (hcons : ∀ f fs, p f → ps fs → ps (f :: fs)) :
  (formulaReports place p)∗ ≤ {ss | ∃ fs, ps fs ∧ Formula.ReportAll fs (Step.events ss) ∧
    Step.needs ss = Formula.needsAll place fs}
  := by
  apply kstar_le_of_mul_le_right
  · rintro _ rfl
    exact ⟨[], hnil, .nil, rfl⟩
  · rintro _ ⟨ss, ⟨f, hf, hss, hneeds⟩, ss', ⟨fs, hfs, hss', hneeds'⟩, rfl⟩
    refine ⟨f :: fs, hcons f fs hf hfs, ?_, ?_⟩
    · rw [Step.events_append]
      apply Formula.ReportAll.cons hss hss'
    · rw [Step.needs_append, hneeds, hneeds', Formula.needsAll]

/-- What follows the word `and` reports a conjunction. -/
theorem emits_conjunction {place : Formula.Place} {p q : Formula → Bool} (ps : List Formula → Bool)
    {part : Reader Unit} (h : part.Emits (formulaReports place p)) (hnil : ps [])
    (hcons : ∀ f fs, p f → ps fs → ps (f :: fs)) (hq : ∀ fs, ps fs → q (.conjunction fs)) :
  (within (.shape .conjunction) (repeated part)).Emits (formulaReports place q)
  := by
  intro c
  apply (emits_within _ (emits_repeated h) ⟨[], Language.nil_mem_kstar _⟩ c).mono
  rintro _ ⟨ss, hss, rfl⟩
  obtain ⟨fs, hfs, hreport, hneeds⟩ := kstar_formulaReports_le hnil hcons hss
  refine ⟨.conjunction fs, hq fs hfs, ?_, ?_⟩
  · rw [Step.events_enclosed]
    apply Formula.Report.conjunction hreport
  · rw [Step.needs_enclosed, hneeds, Formula.needs]

/-- An equality of two terms. -/
theorem emits_equality (place : Formula.Place) {q : Formula → Bool}
    (hq : ∀ l r, q (.equality l r)) :
  (do need .equality "="; within (.shape .equality) (do term; term; closing)).Emits
    (formulaReports place q)
  := by
  intro c
  have hterm : ∃ ss, ss ∈ termReports fun _ => true :=
    ⟨[.event (.name .constant "")], ⟨_, _, rfl, .const "", rfl⟩, rfl⟩
  refine (emits_need_within (L := termReports (fun _ => true) * termReports fun _ => true)
    _ _ (.shape .equality) ?_ ?_ c).mono ?_
  · intro c
    apply (emits_term c).bind _ hterm
    intro _ c _
    apply (emits_term c).bind_silent fun _ => silent_closing
  · obtain ⟨ss, hss⟩ := hterm
    exact ⟨_, Language.append_mem_mul hss hss⟩
  · rintro _ ⟨_, ⟨ss, ⟨⟨l, e, -, hl, hss⟩, hneeds⟩, ss', ⟨⟨r, e', -, hr, hss'⟩, hneeds'⟩, rfl⟩,
      hevents, hneed⟩
    refine ⟨.equality l r, hq l r, ?_, ?_⟩
    · rw [hevents, Step.events_append, hss, hss']
      apply Formula.Report.equality hl hr
    · rw [hneed, Step.needs_append, hneeds, hneeds']
      rfl

/-- The reports of goals. -/
def goalReports : Language Step :=
  formulaReports .goal Formula.isGoal

theorem exists_mem_goalReports :
  ∃ ss, ss ∈ goalReports
  := exists_mem_formulaReports .goal rfl (.conjunction .nil) rfl

theorem emits_goalContents {goal : Reader Unit} (h : goal.Emits goalReports) :
  (goalContents goal).Emits goalReports
  := by
  intro c
  have hne := exists_mem_goalReports
  apply EmitsAt.ite_found
  · intro t ts _ _
    apply emits_equality .goal fun _ _ => rfl
  intro _
  apply EmitsAt.ite_found
  · intro t ts _ _
    apply emits_conjunction Formula.areGoals h rfl _ fun _ hfs => hfs
    intro f fs hf hfs
    rw [Formula.areGoals, hf, hfs, Bool.and_self]
  intro hand
  apply EmitsAt.ite_found
  · intro t ts _ _
    apply emits_negation _ hne fun _ hf => hf
    intro c
    apply (h c).bind_silent fun _ => silent_closing
  intro hnot
  apply EmitsAt.ite_found
  · intro t ts _ _
    apply emits_universal .goal _ h hne fun _ _ hf => hf
  intro hforall
  have hwords : ∀ t ∈ c.rest.head?, ∀ word ∈ ["and", "not", "forall"], t.isName word = false := by
    intro t ht
    simpa using ⟨hand t ht, hnot t ht, hforall t ht⟩
  have hlower : ∀ word ∈ ["and", "not", "forall"] ++ unsupportedGoals, word.toLower = word := by
    decide +kernel
  apply (emitsAt_refuse_atom .goal _ _ emits_term hwords hlower).mono
  apply formulaReports_mono
  intro f hf
  cases f with
  | atom a =>
    simp only [isAtomExcept, Bool.and_eq_true] at hf
    exact hf.1
  | _ => contradiction

theorem emits_goal :
  goal.Emits goalReports
  := emits_nested fun _ => emits_goalContents

/-! ### Effects -/

/-- A literal is reported whose name, if it is not negated, is none of the words that the next
token is not. -/
theorem emitsAt_literalContents (words : List String) {c : Cursor}
    (hwords : ∀ t ∈ c.rest.head?, ∀ word ∈ words, t.isName word = false)
    (hlower : ∀ word ∈ words ++ ["not"] ++ unsupportedEffects, word.toLower = word) :
  literalContents.EmitsAt c
    (formulaReports .effect (Formula.isLiteralExcept (words ++ ["not"] ++ unsupportedEffects)))
  := by
  apply EmitsAt.ite_found
  · intro t ts _ _
    apply (emits_negatedAtom .effect emits_term _).mono
    apply formulaReports_mono
    intro f hf
    match f, hf with
    | .negation (.atom _), _ => rfl
  · intro hnot
    have hall : ∀ t ∈ c.rest.head?, ∀ word ∈ words ++ ["not"], t.isName word = false := by
      intro t ht word hword
      rcases List.mem_append.mp hword with hword | hword
      · apply hwords t ht word hword
      · obtain rfl := List.mem_singleton.mp hword
        apply hnot t ht
    apply (emitsAt_refuse_atom .effect _ _ emits_term hall hlower).mono
    apply formulaReports_mono
    intro f hf
    cases f with
    | atom a =>
      simp only [isAtomExcept, Bool.and_eq_true] at hf
      exact hf.1
    | _ => contradiction

theorem emits_conditionalEffect :
  conditionalEffect.Emits (formulaReports .effect Formula.isConditionalEffect)
  := by
  intro c
  apply silent_opening.bindAt
  intro _ c _
  apply EmitsAt.ite_found
  · intro t ts _ _
    have hpart : (do opening; literalContents).Emits
        (formulaReports .effect (Formula.isLiteralExcept Formula.reservedInConjunctions)) := by
      intro c
      apply silent_opening.bindAt
      intro _ c _
      apply emitsAt_literalContents [] _ (by decide +kernel)
      simp
    apply emits_conjunction (List.all · (Formula.isLiteralExcept Formula.reservedInConjunctions))
      hpart rfl _ fun _ hfs => hfs
    intro f fs hf hfs
    rw [List.all_cons, hf, hfs, Bool.and_self]
  · intro hand
    have hword : ∀ t ∈ c.rest.head?, ∀ word ∈ ["and"], t.isName word = false := by
      intro t ht
      simpa using hand t ht
    apply (emitsAt_literalContents ["and"] hword (by decide +kernel)).mono
    apply formulaReports_mono
    intro f hf
    cases f with
    | conjunction fs => contradiction
    | _ => exact hf

/-- The reports of effects. -/
def effectReports : Language Step :=
  formulaReports .effect Formula.isEffect

theorem exists_mem_effectReports :
  ∃ ss, ss ∈ effectReports
  := exists_mem_formulaReports .effect rfl (.conjunction .nil) rfl

/-- What follows the word `when` reports a conditional. -/
theorem emits_conditional (what : String) :
  (do
    need .conditionalEffects what
    within (.shape .conditional) (do goal; conditionalEffect; closing)).Emits effectReports
  := by
  intro c
  have heffect : ∃ ss, ss ∈ formulaReports .effect Formula.isConditionalEffect :=
    exists_mem_formulaReports .effect rfl (.conjunction .nil) rfl
  refine (emits_need_within (L := goalReports * formulaReports .effect Formula.isConditionalEffect)
    _ _ (.shape .conditional) ?_ ?_ c).mono ?_
  · intro c
    apply (emits_goal c).bind _ heffect
    intro _ c _
    apply (emits_conditionalEffect c).bind_silent fun _ => silent_closing
  · obtain ⟨ss, hss⟩ := exists_mem_goalReports
    obtain ⟨ss', hss'⟩ := heffect
    exact ⟨_, Language.append_mem_mul hss hss'⟩
  · rintro _ ⟨_, ⟨ss, ⟨f, hf, hss, hneeds⟩, ss', ⟨e, he, hss', hneeds'⟩, rfl⟩, hevents, hneed⟩
    refine ⟨.conditional f e, by rw [Formula.isEffect, hf, he, Bool.and_self], ?_, ?_⟩
    · rw [hevents, Step.events_append]
      apply Formula.Report.conditional hss hss'
    · rw [hneed, Step.needs_append, hneeds, hneeds', Formula.needs]

theorem emits_effectContents {effect : Reader Unit} (h : effect.Emits effectReports) :
  (effectContents effect).Emits effectReports
  := by
  intro c
  have hne := exists_mem_effectReports
  apply EmitsAt.ite_found
  · intro t ts _ _
    apply emits_conjunction Formula.areEffects h rfl _ fun _ hfs => hfs
    intro f fs hf hfs
    rw [Formula.areEffects, hf, hfs, Bool.and_self]
  intro hand
  apply EmitsAt.ite_found
  · intro t ts _ _
    apply emits_universal .effect _ h hne fun _ _ hf => hf
  intro hforall
  apply EmitsAt.ite_found
  · intro t ts _ _
    apply emits_conditional
  intro hwhen
  have hwords : ∀ t ∈ c.rest.head?, ∀ word ∈ ["and", "forall", "when"],
      t.isName word = false := by
    intro t ht
    simpa using ⟨hand t ht, hforall t ht, hwhen t ht⟩
  apply (emitsAt_literalContents _ hwords (by decide +kernel)).mono
  apply formulaReports_mono
  intro f hf
  exact Formula.isEffect_of_isLiteralExcept hf

theorem emits_effect :
  effect.Emits effectReports
  := emits_nested fun _ => emits_effectContents

end Reader

end PlanLang
