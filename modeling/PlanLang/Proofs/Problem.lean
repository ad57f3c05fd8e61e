import PlanLang.Proofs.Reading.Outline
import PlanLang.Proofs.Reading.Section

/-!
# Problems are read as they are written

The literals and the goal of a problem are written by their texts.  A problem that is put together
from them is read without errors, and it has the same literals and the same goal.
-/

namespace PlanLang

namespace Problem

/-- The text of a problem that only has an initial state and a goal. -/
def text (name domain : String) (init : List Formula) (goal : Formula) : String :=
  "(define (problem " ++ name ++ ") (:domain " ++ domain ++ ") (:init" ++ Formula.textAll init ++
    ") (:goal " ++ goal.text ++ "))"

/-- The lexemes of the name of the domain that a problem belongs to. -/
def domainLexemes (domain : String) : List Lexeme :=
  [.opening, .keyword "domain", .name domain, .closing]

/-- The sections of a problem that only has an initial state and a goal. -/
def writtenSections (init : List Formula) (goal : Formula) : List WrittenSection :=
  [.contents .init (Formula.lexemesAll init), .contents .goal goal.lexemes]

/-- The text of a problem is cut into the lexemes of its title and of its sections. -/
theorem spells_text {name domain : String} (hname : isWord name) (hdomain : isWord domain)
    {init : List Formula} (hinit : Formula.areRegular isWord isWord init) {goal : Formula}
    (hgoal : goal.isRegular isWord isWord) :
  Spells (text name domain init goal)
    (Outline.titleLexemes "problem" name ++ (domainLexemes domain ++
      ((writtenSections init goal).flatMap WrittenSection.lexemes ++ [.closing])))
  := by
  have hgoalSection := (Outline.spells_section (.contents .goal) (Formula.spells_text hgoal).blank
    (isApart_append rfl (by decide) _)).append Spells.closing rfl
  have hsections := (Outline.spells_section (.contents .init) (Formula.spells_textAll hinit)
    (Formula.isApart_textAll init)).append hgoalSection (Outline.isApart_sectionText _ _ _)
  have hkeyword := (Spells.keyword (show isWord "domain" from rfl)).append
    (Spells.name hdomain).blank (isApart_append rfl (by decide) _)
  have hbelonging := (spells_parenthesized hkeyword).append hsections
    (Outline.isApart_sectionText _ _ _)
  have hdescription := (Outline.spells_title (show isWord "problem" from rfl) hname).append
    hbelonging.blank (isApart_append rfl (by decide) _)
  have htext : text name domain init goal = Outline.titleText "problem" name ++
      (" " ++ ("(" ++ (":" ++ "domain" ++ (" " ++ domain)) ++ ")" ++
        (Outline.sectionText (.contents .init) (Formula.textAll init) ++
          (Outline.sectionText (.contents .goal) (" " ++ goal.text) ++ ")")))) := by
    have htitle : "(define (problem " = "(define (" ++ "problem" ++ " " := by decide +kernel
    have hdomain : ") (:domain " = ")" ++ " " ++ "(" ++ ":" ++ "domain" ++ " " := by decide +kernel
    have hinit : ") (:init" = ")" ++ " (" ++ ":init" := by decide +kernel
    have hgoal : ") (:goal " = ")" ++ " (" ++ ":goal" ++ " " := by decide +kernel
    have hclosing : "))" = ")" ++ ")" := by decide +kernel
    delta text
    rw [htitle, hdomain, hinit, hgoal, hclosing]
    simp only [Outline.titleText, Outline.sectionText, Heading.keyword, String.append_assoc]
  rw [htext]
  simpa [writtenSections, WrittenSection.lexemes, WrittenSection.heading, WrittenSection.inside,
    domainLexemes] using hdescription

/-- The outline of a problem is read from its lexemes. -/
theorem reads_outline (gate : Gate) (name domain : String) {ss : List WrittenSection}
    (hss : ∀ s ∈ ss, s.IsSkippable)
    (horder : Heading.areInOrder layout.headings (ss.map WrittenSection.heading)) :
  outline.ReadsTo gate
    (Outline.titleLexemes "problem" name ++ (domainLexemes domain ++
      (ss.flatMap WrittenSection.lexemes ++ [.closing]))) [] []
    fun found => found.1.lexeme = .name name ∧ found.2.1.lexeme = .name domain ∧
      Outline.Leads ss .empty found.2.2
  := by
  apply (Outline.reads_title (by decide +kernel) name _).bind_silent
  intro s hs
  apply (Reader.reads_opening _).bind_cons
  intro _ _
  apply (Reader.reads_expectAfter (Reader.isKeyword_of_lexeme (by decide +kernel)) _ _).bind_cons
  intro _ _
  apply (Reader.reads_expect (Reader.kind_of_lexeme rfl) _ _).bind_cons
  intro t ht
  apply (Reader.reads_closing _).bind_cons
  intro _ _
  apply (Outline.reads_body layout hss horder).bind_pure
  intro o ho
  exact ⟨hs, ht, ho⟩

/-- A problem is read from the lexemes of its title and of its sections, if the sections that are
found can be read. -/
theorem ofTokens_ok {name domain : String} (hname : name.toLower = name)
    (hdomain : domain.toLower = domain) {ss : List WrittenSection} (hss : ∀ s ∈ ss, s.IsSkippable)
    (horder : Heading.areInOrder layout.headings (ss.map WrittenSection.heading))
    {tokens : List Token}
    (htokens : tokens.map Token.lexeme = Outline.titleLexemes "problem" name ++
      (domainLexemes domain ++ (ss.flatMap WrittenSection.lexemes ++ [.closing])))
    {T : Option Ty} {W : Problem → Prop}
    (h : ∀ o, Outline.Leads ss .empty o →
      ∃ found, o.read (gate o) T = .ok found ∧ W (ofSections name domain o.available found)) :
  ∃ problem, ofTokens T tokens = .ok problem ∧ W problem
  := by
  apply Outline.ok_of_outline (reads_outline .unlimited name domain hss horder) htokens
    (fun p => p.2.2) (fun p => gate p.2.2) fun p => ofSections p.1.name p.2.1.name p.2.2.available
  rintro ⟨s, t, o⟩ ⟨hs, ht, ho⟩
  simp only [Lexeme.denotes_name.name_eq hs, Lexeme.denotes_name.name_eq ht, hname, hdomain]
  apply h o ho

/-! ### Initial states and goals -/

/-- The sections that are found are read to the literals and to the goal. -/
theorem read_of_leads {init : List Formula} (hliterals : init.all Formula.isInitLiteral)
    (hinit : Formula.areRegular isLowerWord isLowerWord init) {goal : Formula}
    (hshape : goal.isGoal) (hgoal : goal.isRegular isLowerWord isLowerWord) {o : Outline}
    (ho : Outline.Leads (writtenSections init goal) .empty o) :
  o.requirements = none ∧ o.read .unlimited none = .ok [.init init, .goal (some goal)]
  := by
  have hgate : Gate.AllowsFormulas .unlimited := ⟨rfl, rfl, rfl, rfl⟩
  cases ho with
  | contents htokens ho =>
    cases ho with
    | contents htokens' ho =>
      cases ho
      -- no section is an action, so that any token will do for the name of one
      let name : Token := ⟨.name, "", 0, .start⟩
      obtain ⟨_, hinit⟩ := Formula.exists_written_init hinit name
      obtain ⟨_, hgoal⟩ := Formula.exists_written_goal hgoal name
      obtain ⟨c, hread, -⟩ := SectionKind.read_of_written hgate hinit hliterals none htokens nofun
      obtain ⟨c', hread', -⟩ := SectionKind.read_of_written hgate hgoal hshape none htokens' nofun
      rw [Section.withDefault_none] at hread hread'
      constructor
      · rfl
      · simp [Outline.read, Outline.empty, hread, hread', Except.map, Outline.gather]

/-- A problem with an initial state and a goal is read from its text. -/
theorem parse_text {name domain : String} (hname : isLowerWord name)
    (hdomain : isLowerWord domain) {init : List Formula}
    (hliterals : init.all Formula.isInitLiteral)
    (hinit : Formula.areRegular isLowerWord isLowerWord init) {goal : Formula}
    (hshape : goal.isGoal) (hgoal : goal.isRegular isLowerWord isLowerWord) :
  parse none (text name domain init goal) = .ok
    { name := name
      domain := domain
      requirements := .empty
      objects := []
      init := init
      goal := some goal }
  := by
  have hword : ∀ word, isLowerWord word → isWord word := fun _ => isWord_of_isLowerWord
  have hspells := tokenize_spells (spells_text (hword _ hname) (hword _ hdomain)
    (Formula.areRegular_mono hword hword hinit) (Formula.isRegular_mono hword hword hgoal))
  have hskip : ∀ s ∈ writtenSections init goal, s.IsSkippable := by
    rw [writtenSections, List.forall_mem_cons, List.forall_mem_singleton]
    exact ⟨⟨by decide, Formula.balanced_lexemesAll init⟩, by decide, goal.balanced_lexemes⟩
  obtain ⟨_, hparse, rfl⟩ := ofTokens_ok (T := none)
    (W := (· = ⟨name, domain, .empty, [], init, some goal⟩)) (toLower_of_isLowerWord hname)
    (toLower_of_isLowerWord hdomain) hskip rfl hspells <| by
      intro o ho
      obtain ⟨hrequirements, hread⟩ := read_of_leads hliterals hinit hshape hgoal ho
      use [.init init, .goal (some goal)]
      rw [gate, Outline.available, hrequirements]
      use hread
      have hgoal : [Section.init init, .goal (some goal)].findSome? Section.declaredGoal
          = some goal := rfl
      simp [ofSections, Section.declaredObjects, Section.declaredInit, hgoal]
  exact hparse

/-- A literal that comes twice, a type with two names and an empty conjunction. -/
theorem parse_text_blocks :
  let onAB : Formula := .atom ⟨"on", [.const ⟨"a", none⟩, .const ⟨"b", none⟩]⟩
  let init : List Formula := [onAB, onAB, .negation (.atom ⟨"clear", [.const ⟨"b", none⟩]⟩)]
  let goal : Formula :=
    .universal [⟨"x", some ((Ty.primitive "block").insert "table")⟩, ⟨"y", none⟩]
      (.conjunction [.negation (.equality (.var ⟨"x", none⟩) (.var ⟨"y", none⟩)), .conjunction []])
  parse none
      ("(define (problem p) (:domain d) (:init (on a b) (on a b) (not (clear b))) " ++
        "(:goal (forall (?x - (either block table) ?y) (and (not (= ?x ?y)) (and)))))")
    = .ok ⟨"p", "d", .empty, [], init, some goal⟩
  := by
  intro onAB init goal
  have htext : text "p" "d" init goal =
      "(define (problem p) (:domain d) (:init (on a b) (on a b) (not (clear b))) " ++
        "(:goal (forall (?x - (either block table) ?y) (and (not (= ?x ?y)) (and)))))" := by
    decide +kernel
  rw [← htext]
  apply parse_text
  all_goals decide +kernel

end Problem

end PlanLang
