import PlanLang.Proofs.Reader.Draft
import PlanLang.Proofs.Reader.Formula
import PlanLang.Proofs.Section.Report

/-!
# The reports of sections

Every section is reported in such a way that a draft accepts each event.  So reading a section
fails because of its text or a missing requirement, and never because what has been read does not
make up a construct.  What it declares and what it needs does not depend on the requirements that
are available, and the default type is filled in where a type is left out.
-/

open Computability

namespace PlanLang

namespace Reader

/-! ### Sequences of items -/

/-- The reports of items for which `p` holds, when `R` reports one and `n` says what it needs. -/
def itemReports {α : Type} (p : α → Bool) (R : α → List Event → Prop)
    (n : α → Finset Requirement) : Language Step :=
  {ss | ∃ a, p a ∧ R a (Step.events ss) ∧ Step.needs ss = n a}

/-- Items one after the other need what all of them need. -/
theorem kstar_itemReports_le {α : Type} {p : α → Bool} {R : α → List Event → Prop}
    {n : α → Finset Requirement} (needsAll : List α → Finset Requirement) (hnil : needsAll [] = ∅)
    (hcons : ∀ a as, needsAll (a :: as) = n a ∪ needsAll as) :
  (itemReports p R n)∗ ≤ itemReports (List.all · p) (ReportEach R) needsAll
  := by
  apply kstar_le_of_mul_le_right
  · rintro _ rfl
    exact ⟨[], rfl, .nil, hnil.symm⟩
  · rintro _ ⟨ss, ⟨a, ha, hss, hneeds⟩, ss', ⟨as, has, hss', hneeds'⟩, rfl⟩
    have hall : (a :: as).all p := by
      rw [List.all_cons, ha]
      exact has
    refine ⟨a :: as, hall, ?_, ?_⟩
    · rw [Step.events_append]
      apply ReportEach.cons hss hss'
    · rw [Step.needs_append, hneeds, hneeds', hcons]

/-! ### Predicates and literals -/

/-- The reports of declared predicates. -/
def predicateReports : Language Step :=
  itemReports (fun _ => true) Atom.Report fun a => typingIf a.isTyped

theorem emits_predicate :
  predicate.Emits predicateReports
  := by
  intro c
  apply (silent_expect _ _).bindAt
  intro _ c _
  apply (silent_expect _ _).bindAt
  intro t c _
  have hnil := nil_mem_listReports .variable .typedList
  have hname : ∃ ss, ss ∈ only [.event (.name .predicate t.name)] *
      listReports .variable .typedList := ⟨_, Language.append_mem_mul rfl hnil⟩
  have hcontents : (do named .predicate t; variableList).Emits
      (only [.event (.name .predicate t.name)] * listReports .variable .typedList) := by
    intro c
    apply (emits_named .predicate t c).bind _ ⟨[], hnil⟩
    intro _ c _
    apply emits_typedList
  have hatom := emits_within (.shape .atom) hcontents hname
  have hpart := emits_within (.part .predicate) hatom <| by
    obtain ⟨ss, hss⟩ := hname
    exact ⟨_, ss, hss, rfl⟩
  apply (hpart c).mono
  rintro _ ⟨_, ⟨_, ⟨_, rfl, ss, ⟨l, hl, hneeds⟩, rfl⟩, rfl⟩, rfl⟩
  refine ⟨.ofName t.name (l.toVariables.map .var), rfl, ?_, ?_⟩
  · rw [Step.events_enclosed, Step.events_enclosed]
    apply Atom.Report.declared t.name hl
  · have hterms : typingIf (Atom.ofName t.name (l.toVariables.map .var)).isTyped
        = Variable.needs l.toVariables := by
      rw [Atom.isTyped, Atom.ofName, List.any_map]
      rfl
    rw [Step.needs_enclosed, Step.needs_enclosed]
    apply Eq.trans _ hterms.symm
    rw [TypedList.needs_toVariables hl.forall_ne_nil]
    exact hneeds

/-- The reports of literals of the initial state. -/
def initReports : Language Step :=
  itemReports Formula.isInitLiteral Formula.InitReport (Formula.needs .goal)

theorem emits_initLiteral :
  initLiteral.Emits initReports
  := by
  intro c
  apply (silent_expect _ _).bindAt
  intro _ c _
  have hliteral : (do
      if ← found (·.isName "not") then negatedAtom groundTerm
      else atom groundTerm : Reader Unit).Emits
        (formulaReports .goal Formula.isInitLiteral) := by
    intro c
    apply EmitsAt.ite_found
    · intro t ts _ _
      apply (emits_negatedAtom .goal emits_groundTerm _).mono
      apply formulaReports_mono
      intro f hf
      cases f with
      | negation g =>
        cases g with
        | atom a => simpa [isNegatedAtom, isAtomExcept, Formula.isInitLiteral] using hf
        | _ => contradiction
      | _ => contradiction
    · intro hnot
      have hname : ∀ t ∈ c.rest.head?, t.kind = .name → t.name.toLower ∉ ["not"] := by
        intro t ht hkind
        rw [List.mem_singleton]
        apply name_ne_of_isName (hnot t ht) (by decide +kernel) hkind
      apply (emitsAt_atom .goal ["not"] emits_groundTerm hname).mono
      apply formulaReports_mono
      intro f hf
      cases f with
      | atom a => simpa [isAtomExcept, Formula.isInitLiteral] using hf
      | _ => contradiction
  have hmem : ∃ ss, ss ∈ formulaReports .goal Formula.isInitLiteral :=
    exists_mem_formulaReports .goal (by decide +kernel) (Formula.Report.atom "" .nil) rfl
  apply (emits_within (.part .initLiteral) hliteral hmem c).mono
  rintro _ ⟨ss, ⟨f, hf, hss, hneeds⟩, rfl⟩
  refine ⟨f, hf, ?_, ?_⟩
  · rw [Step.events_enclosed]
    apply Formula.InitReport.literal hss
  · rw [Step.needs_enclosed, hneeds]

/-! ### Parts that may be left out or empty -/

/-- The reports of formulas that may be left out, when `R` reports one or none. -/
def optionReports (place : Formula.Place) (p : Formula → Bool)
    (R : Option Formula → List Event → Prop) : Language Step :=
  itemReports (Option.all p) R (Formula.needsOption place)

theorem emits_orEmpty {r : Reader Unit} {place : Formula.Place} {p : Formula → Bool}
    (h : r.Emits (formulaReports place p)) :
  (orEmpty r).Emits (optionReports place p Formula.ReportOption)
  := by
  intro c
  apply silent_acceptEmptyList.bindAt
  intro b c _
  cases b with
  | true =>
    apply ((silent_pure ()).emits c).mono
    rintro _ rfl
    exact ⟨none, rfl, .none, rfl⟩
  | false =>
    apply (h c).mono
    rintro ss ⟨f, hf, hss, hneeds⟩
    exact ⟨some f, hf, .some hss, hneeds⟩

theorem exists_mem_optionReports (place : Formula.Place) (p : Formula → Bool) :
  ∃ ss, ss ∈ optionReports place p Formula.ReportOption
  := ⟨[], none, rfl, .none, rfl⟩

theorem emits_actionPart (word : String) (part : Part) {r : Reader Unit} {place : Formula.Place}
    {p : Formula → Bool} (h : r.Emits (formulaReports place p)) :
  (introducedBy word (within (.part part) (orEmpty r))).Emits
    (optionReports place p (Formula.PartReport part))
  := by
  intro c
  apply EmitsAt.ite_found
  · intro t ts _ _
    apply (emits_within _ (emits_orEmpty h) (exists_mem_optionReports place p) _).mono
    rintro _ ⟨ss, ⟨f, hf, hss, hneeds⟩, rfl⟩
    refine ⟨f, hf, ?_, ?_⟩
    · rw [Step.events_enclosed]
      apply Formula.PartReport.written hss
    · rw [Step.needs_enclosed, hneeds]
  · intro _
    apply ((silent_pure ()).emits c).mono
    rintro _ rfl
    exact ⟨none, rfl, .absent, rfl⟩

end Reader

namespace SectionKind

open Reader

/-! ### Sections -/

/-- The reports of sections of a kind, whatever the name of an action. -/
def reports (k : SectionKind) : Language Step :=
  {ss | ∀ name, ∃ s annotated, s.hasGrammar ∧ Section.Report name k s (Step.events ss) ∧
    Step.needs ss = s.needs annotated}

theorem emits_types :
  (within (.part .types) (typedList .name .type (.part .subtypes))).Emits types.reports
  := by
  intro c
  apply (emits_within _ (emits_typedList _ _ _) ⟨[], nil_mem_listReports _ _⟩ c).mono
  rintro _ ⟨ss, ⟨l, hl, hneeds⟩, rfl⟩ name
  refine ⟨.types l.toDeclarations, !l.groups.isEmpty, rfl, ?_, ?_⟩
  · rw [Step.events_enclosed]
    apply Section.Report.types hl
  · rw [Step.needs_enclosed]
    exact hneeds

/-- A list of constants within its part is reported as such. -/
theorem emits_constants {p : Part} {k : SectionKind} {declared : List Constant → Section}
    (hgrammar : ∀ cs, (declared cs).hasGrammar)
    (hneeds : ∀ cs, (declared cs).needs false = Constant.needs cs)
    (hreport : ∀ name {l : TypedList} {es : List Event}, l.Report .constant .typedList es →
      Section.Report name k (declared l.toConstants) (Event.within (.part p) es)) :
  (within (.part p) constantList).Emits k.reports
  := by
  intro c
  apply (emits_within _ (emits_typedList _ _ _) ⟨[], nil_mem_listReports _ _⟩ c).mono
  rintro _ ⟨ss, ⟨l, hl, hlist⟩, rfl⟩ name
  refine ⟨declared l.toConstants, false, hgrammar _, ?_, ?_⟩
  · rw [Step.events_enclosed]
    apply hreport name hl
  · rw [Step.needs_enclosed, hlist, hneeds, TypedList.needs_toConstants hl.forall_ne_nil]

theorem emits_predicates :
  (repeated predicate).Emits predicates.reports
  := by
  intro c
  apply (emits_repeated emits_predicate c).mono
  intro ss hss name
  obtain ⟨as, -, hreport, hneeds⟩ := kstar_itemReports_le
    (fun as => typingIf (as.any Atom.isTyped)) rfl (fun a as => typingIf_or _ _) hss
  exact ⟨_, false, rfl, .predicates hreport, hneeds⟩

theorem emits_init :
  (repeated initLiteral).Emits init.reports
  := by
  intro c
  apply (emits_repeated emits_initLiteral c).mono
  intro ss hss name
  obtain ⟨fs, hfs, hreport, hneeds⟩ := kstar_itemReports_le (Formula.needsAll .goal) rfl
    (fun f fs => rfl) hss
  exact ⟨.init fs, false, hfs, .init hreport, hneeds⟩

theorem emits_action :
  Reader.action.Emits action.reports
  := by
  have hprecondition := emits_actionPart ":precondition" .precondition emits_goal
  have heffect := emits_actionPart ":effect" .effect emits_effect
  have habsent : ∀ place p part, [] ∈ optionReports place p (Formula.PartReport part) :=
    fun _ _ _ => ⟨none, rfl, .absent, rfl⟩
  intro c
  apply (silent_expect _ _).bindAt
  intro name c _
  apply (silent_expectAfter _ _).bindAt
  intro _ c _
  apply silent_opening.bindAt
  intro _ c _
  have hlist := emits_within (.part .parameters) (emits_typedList .var .variable .typedList)
    ⟨[], nil_mem_listReports _ _⟩
  refine ((hlist c).bind (M := optionReports .goal Formula.isGoal (Formula.PartReport .precondition)
    * optionReports .effect Formula.isEffect (Formula.PartReport .effect)) ?_ ?_).mono ?_
  · intro _ c _
    apply (hprecondition c).bind _ ⟨[], habsent _ _ _⟩
    intro _ c _
    apply (heffect c).bind_silent
    intro _
    apply (silent_expect _ _).bind
    intro _
    apply silent_pure
  · exact ⟨_, Language.append_mem_mul (habsent _ _ _) (habsent _ _ _)⟩
  · rintro _ ⟨_, ⟨ss, ⟨l, hl, hneeds⟩, rfl⟩, _, ⟨ss', ⟨f, hf, hss', hneeds'⟩,
      ss'', ⟨g, hg, hss'', hneeds''⟩, rfl⟩, rfl⟩ name
    refine ⟨.action ⟨name.name, name.position, l.toVariables, f, g⟩, false, ?_, ?_, ?_⟩
    · rw [Section.hasGrammar, hf, hg, Bool.and_self]
    · rw [Step.events_append, Step.events_enclosed, Step.events_append]
      apply Section.Report.action hl hss' hss''
    · rw [Step.needs_append, Step.needs_enclosed, Step.needs_append, hneeds, hneeds', hneeds'',
        Section.needs, TypedList.needs_toVariables hl.forall_ne_nil]

theorem emits_goal :
  (within (.part .goal) do orEmpty Reader.goal; closing).Emits goal.reports
  := by
  have hformula : (do orEmpty Reader.goal; closing : Reader Unit).Emits
      (optionReports .goal Formula.isGoal Formula.ReportOption) := by
    intro c
    apply (emits_orEmpty Reader.emits_goal c).bind_silent fun _ => silent_closing
  intro c
  apply (emits_within _ hformula (exists_mem_optionReports _ _) c).mono
  rintro _ ⟨ss, ⟨f, hf, hss, hneeds⟩, rfl⟩ name
  refine ⟨.goal f, false, hf, ?_, ?_⟩
  · rw [Step.events_enclosed]
    apply Section.Report.goal hss
  · rw [Step.needs_enclosed]
    exact hneeds

/-- A section of each kind is reported as one of that kind. -/
theorem emits_reports (k : SectionKind) :
  k.reader.Emits k.reports
  := by
  have hconstants := @emits_constants .constants .constants .constants (fun _ => rfl)
    (fun _ => rfl) fun _ _ _ h => .constants h
  have hobjects := @emits_constants .objects .objects .objects (fun _ => rfl)
    (fun _ => rfl) fun _ _ _ h => .objects h
  intro c
  cases k with
  | types => apply (emits_types c).bind_silent fun _ => silent_pure _
  | constants => apply (hconstants c).bind_silent fun _ => silent_pure _
  | predicates => apply (emits_predicates c).bind_silent fun _ => silent_pure _
  | action => apply (emits_action c).bind_silent fun _ => silent_pure _
  | objects => apply (hobjects c).bind_silent fun _ => silent_pure _
  | init => apply (emits_init c).bind_silent fun _ => silent_pure _
  | goal => apply (emits_goal c).bind_silent fun _ => silent_pure _

/-- The report of a section is noted, whatever the kind of the section. -/
theorem emits_reader (k : SectionKind) (T : Option Ty) :
  k.reader.Emits (notedReports T)
  := by
  intro c
  apply (k.emits_reports c).mono
  intro ss hss
  obtain ⟨s, annotated, hgrammar, hreport, -⟩ := hss ⟨.name, "", 0, .start⟩
  obtain ⟨note, hnote, -⟩ := hreport.notes hgrammar T
  exact ⟨note, hnote⟩

/-- Reading a section fails because of its text or a missing requirement only. -/
theorem isTextual_of_read {k : SectionKind} {gate : Gate} {T : Option Ty} {tokens : List Token}
    {e : SyntaxError} (h : k.read gate T tokens = .error e) :
  e.isTextual
  := by
  have herror : k.reader.draft gate T tokens = .error e := by
    cases hdraft : k.reader.draft gate T tokens with
    | error e' => simpa [read, bind, Except.bind, hdraft] using h
    | ok p => simp [read, bind, Except.bind, hdraft, pure, Except.pure] at h
  apply (emits_reader k T).isTextual_of_draft herror

end SectionKind

end PlanLang
