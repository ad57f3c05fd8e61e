import PlanLang.Proofs.Reading.Action
import PlanLang.Proofs.Reading.Outline

/-!
# Actions are read as they are written

The actions of a domain are written with the texts of their parts.  A domain that declares `:adl`
is read without errors from its actions, and it has the same actions in the same order.
-/

namespace PlanLang

/-- Everything that formulas need is there where `:adl` is declared. -/
theorem Gate.allowsFormulas_of_adl {rs : List Requirement} (h : .adl ∈ rs) :
  Gate.AllowsFormulas (.declared (rs.foldl .declare .empty))
  := by
  have hallows : ∀ q ∈ Requirement.adl.closure,
      (Gate.declared (rs.foldl .declare .empty)).allows q := by
    intro q hq
    have hmem := Requirements.mem_toList_foldl_declare (s := .empty).mpr (.inr ⟨_, h, hq⟩)
    simp [Gate.allows, Requirements.has, hmem]
  have himplied : ∀ q ∈ Requirement.adl.implies, q ∈ Requirement.adl.closure := by
    intro q hq
    apply Requirement.mem_closure_of_mem_implies hq q.mem_closure_self
  constructor
  · apply hallows
    apply himplied
    decide
  · apply hallows
    apply himplied
    decide
  · apply hallows
    apply Requirement.mem_closure_of_mem_implies (r := .quantifiedPreconditions) (by decide)
    apply Requirement.mem_closure_of_mem_implies (r := .universalPreconditions) (by decide)
    apply Requirement.mem_closure_self
  · apply hallows
    apply himplied
    decide

/-! ### Balanced actions -/

namespace WrittenAction

theorem balanced_partLexemes (word : String) (f : Option (Option Formula)) :
  Balanced (partLexemes word f)
  := by
  cases f with
  | none => exact .nil
  | some f =>
    apply Balanced.cons rfl
    cases f with
    | none => exact .parenthesized .nil
    | some g => exact g.balanced_lexemes

theorem balanced_contents (w : WrittenAction) :
  Balanced w.contents
  := by
  have hparts := (balanced_partLexemes "precondition" w.precondition).append
    (balanced_partLexemes "effect" w.effect)
  have hlist := TypedList.balanced_lexemes (fun _ => rfl : ∀ n, (Lexeme.var n).isPlain)
    (.ofVariables w.parameters)
  have hcontents := ((hlist.parenthesized.append hparts).cons (l := .keyword "parameters") rfl).cons
    (l := .name w.name) rfl
  simpa [contents] using hcontents

/-- The text of an action is that of a section. -/
theorem spells_section {w : WrittenAction} (hw : w.isRegular) :
  Spells w.text (WrittenSection.contents .action w.contents).lexemes
  := by
  have hword : ∀ word, isLowerWord word → isWord word := fun _ => isWord_of_isLowerWord
  obtain ⟨hname, hparameters, hprecondition, heffect⟩ := forall_of_isRegular hw
  have hkeyword : (Heading.contents .action).lexeme = .keyword "action" := by decide +kernel
  rw [WrittenSection.lexemes, WrittenSection.heading, hkeyword]
  apply spells_text (hword _ hname) (Variable.areListed_mono hword hword hparameters)
  · intro g hg
    apply Formula.isRegular_mono hword hword (hprecondition g hg).2
  · intro g hg
    apply Formula.isRegular_mono hword hword (heffect g hg).2

end WrittenAction

namespace Domain

/-- The text of a domain that only has requirements and actions. -/
def text (name : String) (rs : List Requirement) (ws : List WrittenAction) : String :=
  "(define (domain " ++ name ++ ") (:requirements" ++
    Outline.afterBlanks (rs.map Requirement.keyword) ++ ")" ++
    Outline.afterBlanks (ws.map WrittenAction.text) ++ ")"

/-- The sections of a domain that only has requirements and actions. -/
def writtenSections (rs : List Requirement) (ws : List WrittenAction) : List WrittenSection :=
  .requirements rs :: ws.map fun w => .contents .action w.contents

/-- The text of a domain is cut into the lexemes of its title and of its sections. -/
theorem spells_text {name : String} (hname : isWord name) (rs : List Requirement)
    {ws : List WrittenAction} (hws : ∀ w ∈ ws, w.isRegular) :
  Spells (text name rs ws)
    (Outline.titleLexemes "domain" name ++
      ((writtenSections rs ws).flatMap WrittenSection.lexemes ++ [.closing]))
  := by
  have hkeywords : Spells (Outline.afterBlanks (rs.map Requirement.keyword))
      (rs.map Requirement.lexeme) := by
    rw [List.map_eq_flatMap (f := Requirement.lexeme)]
    apply Outline.spells_afterBlanks
    intro r _
    apply Outline.spells_keywordText
    cases r <;> decide +kernel
  have hactions : Spells (Outline.afterBlanks (ws.map WrittenAction.text))
      (ws.flatMap fun w => (WrittenSection.contents .action w.contents).lexemes) := by
    apply Outline.spells_afterBlanks
    intro w hw
    apply WrittenAction.spells_section (hws w hw)
  have hsections := (Outline.spells_section .requirements hkeywords
    (Outline.isApart_afterBlanks _)).append (hactions.append Spells.closing rfl)
    (isApart_append_of_isApart (Outline.isApart_afterBlanks _) rfl)
  have hdescription := (Outline.spells_title (show isWord "domain" from rfl) hname).append
    hsections (Outline.isApart_sectionText _ _ _)
  have htext : text name rs ws = Outline.titleText "domain" name ++
      (Outline.sectionText .requirements (Outline.afterBlanks (rs.map Requirement.keyword)) ++
        (Outline.afterBlanks (ws.map WrittenAction.text) ++ ")")) := by
    have htitle : "(define (domain " = "(define (" ++ "domain" ++ " " := by decide +kernel
    have hrequirements : ") (:requirements" = ")" ++ " (" ++ ":requirements" := by decide +kernel
    delta text
    rw [htitle, hrequirements]
    simp only [Outline.titleText, Outline.sectionText, Heading.keyword, String.append_assoc]
  rw [htext]
  simpa [writtenSections, WrittenSection.lexemes, WrittenSection.heading, WrittenSection.inside,
    List.flatMap_map] using hdescription

/-- The outline of a domain is read from its lexemes. -/
theorem reads_outline (gate : Gate) (name : String) {ss : List WrittenSection}
    (hss : ∀ s ∈ ss, s.IsSkippable)
    (horder : Heading.areInOrder layout.headings (ss.map WrittenSection.heading)) :
  outline.ReadsTo gate
    (Outline.titleLexemes "domain" name ++ (ss.flatMap WrittenSection.lexemes ++ [.closing])) [] []
    fun found => found.1.lexeme = .name name ∧ Outline.Leads ss .empty found.2
  := by
  apply (Outline.reads_title (by decide +kernel) name _).bind_silent
  intro s hs
  apply (Outline.reads_body layout hss horder).bind_pure
  intro o ho
  exact ⟨hs, ho⟩

/-- A domain is read from the lexemes of its title and of its sections, if the sections that are
found can be read. -/
theorem ofTokens_ok {name : String} (hname : name.toLower = name) {ss : List WrittenSection}
    (hss : ∀ s ∈ ss, s.IsSkippable)
    (horder : Heading.areInOrder layout.headings (ss.map WrittenSection.heading))
    {tokens : List Token}
    (htokens : tokens.map Token.lexeme = Outline.titleLexemes "domain" name ++
      (ss.flatMap WrittenSection.lexemes ++ [.closing]))
    {T : Option Ty} {W : Domain → Prop}
    (h : ∀ o, Outline.Leads ss .empty o → ∃ found,
      o.read (.declared o.available) T = .ok found ∧ W (ofSections name o.available found)) :
  ∃ domain, ofTokens T tokens = .ok domain ∧ W domain
  := by
  apply Outline.ok_of_outline (reads_outline .unlimited name hss horder) htokens
    Prod.snd (fun p => .declared p.2.available) fun p => ofSections p.1.name p.2.available
  rintro ⟨t, o⟩ ⟨ht, ho⟩
  simp only [Lexeme.denotes_name.name_eq ht, hname]
  apply h o ho

/-! ### Actions -/

/-- The actions are read from the tokens of their sections. -/
theorem exists_actions {gate : Gate} (hgate : gate.AllowsFormulas) {ws : List WrittenAction}
    (hws : ∀ w ∈ ws, w.isRegular) {found : List (SectionKind × List Token)}
    (h : List.Forall₂ (fun item x => x.1 = item.1 ∧
      ∃ rest, x.2.map Token.lexeme = item.2 ++ [.closing] ++ rest)
      (ws.map fun w => (SectionKind.action, w.contents)) found) :
  ∃ as, Outline.gather (found.map fun (k, tokens) => (k.read gate none tokens).map Prod.fst)
      = .ok (as.map Section.action) ∧
    List.Forall₂ (fun w a => ∃ position, a = w.toAction position) ws as
  := by
  induction ws generalizing found with
  | nil =>
    cases h
    exact ⟨[], rfl, .nil⟩
  | cons w ws ih =>
    rw [List.forall_mem_cons] at hws
    cases h with
    | @cons _ x _ xs hfirst hrest =>
      obtain ⟨k, tokens⟩ := x
      obtain ⟨hkind, rest, htokens⟩ := hfirst
      obtain rfl : k = .action := hkind
      obtain ⟨as, hread, has⟩ := ih hws.2 hrest
      obtain ⟨position, c, haction⟩ := SectionKind.read_action hgate hws.1 htokens
      have hvalue : (SectionKind.action.read gate none tokens).map Prod.fst
          = .ok (.action (w.toAction position)) := by
        rw [haction]
        rfl
      refine ⟨w.toAction position :: as, ?_, .cons ⟨position, rfl⟩ has⟩
      simp only [List.map_cons, hvalue, Outline.gather, hread]
      rfl

/-- The sections that are found are read to the actions. -/
theorem read_of_leads {rs : List Requirement} (hadl : .adl ∈ rs) {ws : List WrittenAction}
    (hws : ∀ w ∈ ws, w.isRegular) {o : Outline}
    (ho : Outline.Leads (writtenSections rs ws) .empty o) :
  o.available = rs.foldl .declare .empty ∧
    ∃ as, o.read (.declared (rs.foldl .declare .empty)) none = .ok (as.map Section.action) ∧
      List.Forall₂ (fun w a => ∃ position, a = w.toAction position) ws as
  := by
  cases ho with
  | requirements ho =>
    have hactions : (ws.map fun w => WrittenSection.contents .action w.contents)
        = (ws.map fun w => (SectionKind.action, w.contents)).map
          fun item => .contents item.1 item.2 := by
      rw [List.map_map]
      rfl
    rw [hactions] at ho
    obtain ⟨hrequirements, found, hsections, hfound⟩ := ho.exists_sections
    constructor
    · rw [Outline.available, hrequirements]
      rfl
    · rw [Outline.read, hsections]
      apply exists_actions (Gate.allowsFormulas_of_adl hadl) hws hfound

/-- A domain that only declares actions. -/
theorem ofSections_actions (name : String) (s : Requirements) (as : List Action) :
  ofSections name s (as.map .action) = ⟨name, s, [], [], [], as⟩
  := by
  simp [ofSections, List.flatMap_map, Section.declaredTypes, Section.declaredConstants,
    Section.declaredPredicates, Section.declaredActions]

/-- A domain that declares `:adl` has the actions that are written in its text, one after the
other, and nothing else is declared. -/
theorem parse_domainText {name : String} (hname : isLowerWord name) {rs : List Requirement}
    (hadl : .adl ∈ rs) {ws : List WrittenAction} (hws : ∀ w ∈ ws, w.isRegular) :
  ∃ as, List.Forall₂ (fun w a => ∃ position, a = w.toAction position) ws as ∧
    parse none (text name rs ws) = .ok
      { name := name
        requirements := rs.foldl .declare .empty
        types := []
        constants := []
        predicates := []
        actions := as }
  := by
  have hskip : ∀ s ∈ writtenSections rs ws, s.IsSkippable := by
    rw [writtenSections, List.forall_mem_cons, List.forall_mem_map]
    refine ⟨trivial, ?_⟩
    intro w _
    exact ⟨by decide, w.balanced_contents⟩
  have horder : Heading.areInOrder layout.headings
      ((writtenSections rs ws).map WrittenSection.heading) := by
    have hnext : Heading.contents .action ∈ Heading.requirements.following layout.headings := by
      decide
    rw [writtenSections, List.map_cons, List.map_map, Heading.areInOrder, Bool.and_eq_true]
    constructor
    · rfl
    · apply Heading.areInOrder_of_repeats (h := .contents .action) rfl _ hnext
      simp [WrittenSection.heading]
  have hspells := tokenize_spells (spells_text (isWord_of_isLowerWord hname) rs hws)
  obtain ⟨_, hparse, as, has, rfl⟩ := ofTokens_ok (T := none)
    (W := fun domain => ∃ as, List.Forall₂ (fun w a => ∃ position, a = w.toAction position) ws as ∧
      domain = ⟨name, rs.foldl .declare .empty, [], [], [], as⟩)
    (toLower_of_isLowerWord hname) hskip horder hspells <| by
      intro o ho
      obtain ⟨havailable, as, hread, has⟩ := read_of_leads hadl hws ho
      rw [havailable]
      exact ⟨as.map .action, hread, as, has, ofSections_actions _ _ as⟩
  exact ⟨as, has, hparse⟩

/-- An action with a conditional effect, and an action whose effect is an empty list. -/
theorem parse_domainText_move :
  let atX : Formula := .atom ⟨"at", [.var ⟨"x", none⟩]⟩
  let moved : Formula := .conditional (.negation atX) (.conjunction [atX, .negation atX])
  let ws : List WrittenAction :=
    [⟨"move", [⟨"x", some (.primitive "spot")⟩, ⟨"y", none⟩], some (some atX),
        some (some (.universal [⟨"z", some (.primitive "spot")⟩] moved))⟩,
      ⟨"wait", [], none, some none⟩]
  ∃ as, List.Forall₂ (fun w a => ∃ position, a = w.toAction position) ws as ∧
    parse none
      ("(define (domain d) (:requirements :adl) " ++
        "(:action move :parameters (?x - spot ?y) :precondition (at ?x) :effect " ++
        "(forall (?z - spot) (when (not (at ?x)) (and (at ?x) (not (at ?x)))))) " ++
        "(:action wait :parameters () :effect ()))")
      = .ok ⟨"d", [Requirement.adl].foldl .declare .empty, [], [], [], as⟩
  := by
  intro atX moved ws
  have htext : text "d" [.adl] ws =
      "(define (domain d) (:requirements :adl) " ++
        "(:action move :parameters (?x - spot ?y) :precondition (at ?x) :effect " ++
        "(forall (?z - spot) (when (not (at ?x)) (and (at ?x) (not (at ?x)))))) " ++
        "(:action wait :parameters () :effect ()))" := by
    decide +kernel
  rw [← htext]
  apply parse_domainText
  · decide +kernel
  · decide
  · decide +kernel

end Domain

end PlanLang
