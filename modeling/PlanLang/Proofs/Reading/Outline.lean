import PlanLang.Proofs.Outline
import PlanLang.Proofs.Reading.Balance
import PlanLang.Proofs.Requirements

/-!
# Reading outlines

The outline of a description is read from the lexemes of its title and of its sections, as long as
the sections come in the order that the layout asks for.
-/

namespace PlanLang

/-! ### Headings -/

namespace Heading

/-- The lexeme of the keyword of a heading. -/
def lexeme (h : Heading) : Lexeme :=
  ⟨.keyword, h.keyword⟩

theorem toLower_keyword (h : Heading) :
  h.keyword.toLower = h.keyword
  := by
  rcases h with _ | k
  · decide +kernel
  · cases k <;> decide +kernel

/-- No two headings have the same keyword. -/
theorem keyword_injective {g h : Heading} (heq : g.keyword = h.keyword) :
  g = h
  := by
  revert heq
  rcases g with _ | j <;> rcases h with _ | k
  · decide +kernel
  · cases k <;> decide +kernel
  · cases j <;> decide +kernel
  · cases j <;> cases k <;> decide +kernel

/-- The keyword of a heading is not that of another one. -/
theorem isKeyword_lexeme_iff {g h : Heading} :
  h.lexeme.isKeyword g.keyword ↔ g = h
  := by
  have hkind : h.lexeme.kind = .keyword := rfl
  rw [Lexeme.isKeyword, hkind, sameWord, toLower_keyword, lexeme, toLower_keyword]
  simp only [decide_true, Bool.true_and, beq_iff_eq]
  constructor
  · intro heq
    apply keyword_injective heq.symm
  · rintro rfl
    rfl

/-- A heading that repeats may come after itself. -/
theorem mem_following {h : Heading} {allowed : List Heading} (hallowed : h ∈ allowed)
    (hrepeats : h.repeats) :
  h ∈ h.following allowed
  := by
  have hfirst : ∃ gs, allowed.dropWhile (· ≠ h) = h :: gs := by
    induction allowed with
    | nil => contradiction
    | cons g gs ih =>
      by_cases heq : g = h
      · exact ⟨gs, by simp [heq]⟩
      · obtain ⟨gs', hgs'⟩ := ih (List.mem_of_ne_of_mem (Ne.symm heq) hallowed)
        exact ⟨gs', by simpa [heq] using hgs'⟩
  obtain ⟨gs, hgs⟩ := hfirst
  rw [following, hgs]
  simp [hrepeats]

/-- The headings can come in this order where `allowed` are the first ones that may come. -/
def areInOrder : List Heading → List Heading → Bool
  | _, [] => true
  | allowed, h :: hs => h ∈ allowed && areInOrder (h.following allowed) hs

/-- A heading that repeats may come as often as one likes. -/
theorem areInOrder_of_repeats {h : Heading} (hrepeats : h.repeats) {hs : List Heading}
    (hall : ∀ g ∈ hs, g = h) {allowed : List Heading} (hallowed : h ∈ allowed) :
  areInOrder allowed hs
  := by
  induction hs generalizing allowed with
  | nil => rfl
  | cons g hs ih =>
    rw [List.forall_mem_cons] at hall
    obtain ⟨rfl, hall⟩ := hall
    rw [areInOrder, decide_eq_true hallowed, Bool.true_and]
    apply ih hall (mem_following hallowed hrepeats)

end Heading

namespace Outline

open Reader

variable {gate : Gate}

/-- A heading that is allowed is read from its lexemes. -/
theorem reads_heading (unsupported : List String) {allowed : List Heading} {h : Heading}
    (hallowed : h ∈ allowed) (rest : List Lexeme) :
  (heading unsupported allowed).ReadsTo gate [.opening, h.lexeme] rest [] (· = h)
  := by
  apply (reads_expectAfter (kind_of_lexeme rfl) _ _).bind_cons
  intro _ _
  apply (reads_expect (kind_of_lexeme rfl) _ _).bind_cons
  intro t ht
  have hfind : allowed.find? (fun g => t.isKeyword g.keyword) = some h := by
    simp only [isKeyword_of_lexeme rfl t ht]
    apply find?_of_unique hallowed (Heading.isKeyword_lexeme_iff.mpr rfl)
    intro g hg
    apply Heading.isKeyword_lexeme_iff.mp hg
  simp only [hfind]
  apply reads_pure (V := (· = h)) rfl rest

end Outline

/-! ### Requirements -/

namespace Requirement

/-- The lexeme of the keyword of a requirement. -/
def lexeme (r : Requirement) : Lexeme :=
  ⟨.keyword, r.keyword⟩

end Requirement

namespace Outline

variable {gate : Gate}

open Reader

theorem reads_requirement (s : Requirements) (r : Requirement) (rest : List Lexeme) :
  (requirement s).ReadsTo gate [r.lexeme] rest [] (· = s.declare r)
  := by
  apply (reads_expect (kind_of_lexeme rfl) _ _).bind_cons
  intro t ht
  have htext : t.text = r.keyword := congrArg Lexeme.text ht
  rw [htext, r.ofKeyword?_keyword]
  apply reads_pure (V := (· = s.declare r)) rfl rest

/-- Requirements are declared one after the other. -/
theorem reads_requirements (s : Requirements) (rs : List Requirement) (rest : List Lexeme) :
  (untilClosing requirement s).ReadsTo gate (rs.map Requirement.lexeme ++ [.closing]) rest []
    (· = rs.foldl .declare s)
  := by
  rw [List.map_eq_flatMap]
  apply reads_untilClosing_silent requirement _
    (I := fun qs t => qs.foldl .declare t = rs.foldl .declare s)
  · intro r qs t ht rest
    apply (reads_requirement t r rest).imp
    rintro _ rfl
    exact ht
  · intro r _
    exact ⟨r.lexeme, [], rfl, nofun⟩
  · rfl

end Outline

/-! ### Sections -/

/-- A section of a description, given by the lexemes that its contents are spelled with. -/
inductive WrittenSection where
  | requirements (rs : List Requirement)
  | contents (k : SectionKind) (ls : List Lexeme)

namespace WrittenSection

/-- The heading of a section. -/
def heading : WrittenSection → Heading
  | requirements _ => .requirements
  | contents k _ => .contents k

/-- The lexemes below the heading of a section. -/
def inside : WrittenSection → List Lexeme
  | requirements rs => rs.map Requirement.lexeme
  | contents _ ls => ls

/-- The lexemes of a section. -/
def lexemes (s : WrittenSection) : List Lexeme :=
  .opening :: s.heading.lexeme :: (s.inside ++ [.closing])

/-- The contents of the section can be passed over, and no requirement is needed for them. -/
def IsSkippable : WrittenSection → Prop
  | requirements _ => True
  | contents k ls => k ≠ .types ∧ Balanced ls

end WrittenSection

namespace Outline

/-- Sections that follow each other lead from one outline to another. -/
inductive Leads : List WrittenSection → Outline → Outline → Prop where
  | nil (o : Outline) :
    Leads [] o o
  | requirements {rs : List Requirement} {ss : List WrittenSection} {o o' : Outline}
    (h : Leads ss { o with requirements := some (rs.foldl .declare .empty) } o') :
    Leads (.requirements rs :: ss) o o'
  | contents {k : SectionKind} {ls rest : List Lexeme} {tokens : List Token}
    {ss : List WrittenSection} {o o' : Outline}
    (htokens : tokens.map Token.lexeme = ls ++ [.closing] ++ rest)
    (h : Leads ss { o with sections := o.sections ++ [(k, tokens)] } o') :
    Leads (.contents k ls :: ss) o o'

/-- The sections that have been found are those that are written, with their tokens. -/
theorem Leads.exists_sections {items : List (SectionKind × List Lexeme)} {o o' : Outline}
    (h : Leads (items.map fun item => .contents item.1 item.2) o o') :
  o'.requirements = o.requirements ∧ ∃ found, o'.sections = o.sections ++ found ∧
    List.Forall₂ (fun item x => x.1 = item.1 ∧
      ∃ rest, x.2.map Token.lexeme = item.2 ++ [.closing] ++ rest) items found
  := by
  induction items generalizing o with
  | nil =>
    cases h
    exact ⟨rfl, [], (List.append_nil _).symm, .nil⟩
  | cons item items ih =>
    cases h with
    | @contents _ _ rest tokens _ _ _ htokens h =>
      obtain ⟨hrequirements, found, hsections, hfound⟩ := ih h
      refine ⟨hrequirements, (item.1, tokens) :: found, ?_, .cons ⟨rfl, rest, htokens⟩ hfound⟩
      rw [hsections, List.append_assoc, List.singleton_append]

variable {gate : Gate}

open Reader

theorem reads_checkTyping (o : Outline) {k : SectionKind} (hk : k ≠ .types) (rest : List Lexeme) :
  (checkTyping o k).Reads gate [] rest []
  := by
  apply (silent_checkTyping o k).readsTo
  intro c hc
  refine ⟨(), c, ?_, trivial, hc⟩
  simp [checkTyping, hk]

/-- A section is entered, whatever the sections after it lead to. -/
theorem reads_enter (o : Outline) {s : WrittenSection} (hs : s.IsSkippable) (rest : List Lexeme) :
  (o.enter s.heading).ReadsTo gate (s.inside ++ [.closing]) rest []
    fun o₁ => ∀ {ss o'}, Leads ss o₁ o' → Leads (s :: ss) o o'
  := by
  cases s with
  | requirements rs =>
    apply (reads_requirements .empty rs rest).bind_pure
    rintro _ rfl ss o' h
    exact .requirements h
  | contents k ls =>
    obtain ⟨hk, hls⟩ := hs
    apply (reads_checkTyping o hk _).bind_nil
    intro _ _
    apply (reads_skipContents hls rest).bind_pure
    intro tokens htokens ss o' h
    exact .contents htokens h

theorem reads_nextSection (unsupported : List String) {allowed : List Heading} (o : Outline)
    {s : WrittenSection} (hallowed : s.heading ∈ allowed) (hs : s.IsSkippable)
    (rest : List Lexeme) :
  (nextSection unsupported (allowed, o)).ReadsTo gate s.lexemes rest []
    fun next => next.1 = s.heading.following allowed ∧
      ∀ {ss o'}, Leads ss next.2 o' → Leads (s :: ss) o o'
  := by
  apply (reads_heading unsupported hallowed _).bind_silent
  rintro _ rfl
  apply (reads_enter o hs rest).bind_pure
  intro o₁ ho₁
  exact ⟨rfl, ho₁⟩

/-- Sections that are in order are read one after the other. -/
theorem reads_sections (unsupported : List String) {allowed : List Heading} (o : Outline)
    {ss : List WrittenSection} (hss : ∀ s ∈ ss, s.IsSkippable)
    (horder : Heading.areInOrder allowed (ss.map WrittenSection.heading)) (rest : List Lexeme) :
  (untilClosing (nextSection unsupported) (allowed, o)).ReadsTo gate
    (ss.flatMap WrittenSection.lexemes ++ [.closing]) rest [] fun last => Leads ss o last.2
  := by
  -- The sections that are left can be read, and what they lead to is what all lead to.
  apply (reads_untilClosing_silent (nextSection unsupported) WrittenSection.lexemes
    (I := fun left last => (∀ s ∈ left, s.IsSkippable) ∧
      Heading.areInOrder last.1 (left.map WrittenSection.heading) ∧
      ∀ {o'}, Leads left last.2 o' → Leads ss o o') _ _ _ rest).imp
  · rintro ⟨_, o'⟩ ⟨-, -, hleads⟩
    apply hleads (.nil o')
  · rintro s left ⟨allowed, o₁⟩ ⟨hskip, horder, hleads⟩ rest
    rw [List.forall_mem_cons] at hskip
    rw [List.map_cons, Heading.areInOrder, Bool.and_eq_true] at horder
    obtain ⟨hallowed, horder⟩ := horder
    apply (reads_nextSection unsupported o₁ (of_decide_eq_true hallowed) hskip.1 rest).imp
    rintro ⟨_, o₂⟩ ⟨rfl, hnext⟩
    exact ⟨hskip.2, horder, fun h => hleads (hnext h)⟩
  · intro s _
    exact ⟨_, _, rfl, nofun⟩
  · exact ⟨hss, horder, fun h => h⟩

/-! ### Descriptions -/

/-- All sections of a description are read, up to its end. -/
theorem reads_body (l : Layout) {ss : List WrittenSection} (hss : ∀ s ∈ ss, s.IsSkippable)
    (horder : Heading.areInOrder l.headings (ss.map WrittenSection.heading)) :
  (body l).ReadsTo gate (ss.flatMap WrittenSection.lexemes ++ [.closing]) [] [] (Leads ss .empty)
  := by
  rw [← List.append_nil (ss.flatMap WrittenSection.lexemes ++ [Lexeme.closing])]
  apply (reads_sections l.unsupported .empty hss horder []).bind_silent
  rintro ⟨_, o⟩ ho
  apply ReadsTo.bind_pure
  · apply silent_noMore.readsTo (V := fun _ => True)
    intro c hc
    obtain ⟨ts, last⟩ := c
    obtain rfl : ts = [] := List.map_eq_nil_iff.mp hc
    exact ⟨(), ⟨[], last⟩, rfl, trivial, rfl⟩
  · intro _ _
    exact ho

/-- The lexemes of the beginning of a description. -/
def titleLexemes (word name : String) : List Lexeme :=
  [.opening, .name "define", .opening, .name word, .name name, .closing]

theorem reads_title {word : String} (hword : (Lexeme.name word).isName word) (name : String)
    (rest : List Lexeme) :
  (title word).ReadsTo gate (titleLexemes word name) rest [] (·.lexeme = .name name)
  := by
  apply (reads_opening _).bind_cons
  intro _ _
  apply (reads_expect (isName_of_lexeme (by decide +kernel)) _ _).bind_cons
  intro _ _
  apply (reads_opening _).bind_cons
  intro _ _
  apply (reads_expect (isName_of_lexeme hword) _ _).bind_cons
  intro _ _
  apply (reads_expect (kind_of_lexeme rfl) _ _).bind_cons
  intro t ht
  apply (reads_closing _).bind_pure
  intro _ _
  exact ht

/-! ### Spelling -/

/-- The text is a colon and a word. -/
def isKeywordText (s : String) : Bool :=
  s.toList.head? = some ':' && isWord (String.ofList s.toList.tail)

theorem spells_keywordText {s : String} (h : isKeywordText s) :
  Spells s [⟨.keyword, s⟩]
  := by
  rw [isKeywordText, Bool.and_eq_true] at h
  obtain ⟨hcolon, hword⟩ := h
  have htext : ":" ++ String.ofList s.toList.tail = s := by
    rw [← String.toList_inj, String.toList_append, String.toList_ofList, String.toList_ofList]
    apply List.cons_head?_tail (of_decide_eq_true hcolon)
  have hspells := Spells.keyword hword
  rwa [Lexeme.keyword, htext] at hspells

/-- The text of a section after a blank, where `s` is the text below the heading. -/
def sectionText (h : Heading) (s : String) : String :=
  " (" ++ h.keyword ++ s ++ ")"

theorem isApart_sectionText (h : Heading) (s t : String) :
  isApart (sectionText h s ++ t)
  := by
  rw [sectionText, String.append_assoc, String.append_assoc, String.append_assoc]
  apply isApart_append rfl (by decide)

theorem spells_section (h : Heading) {s : String} {ls : List Lexeme} (hs : Spells s ls)
    (hapart : isApart s) :
  Spells (sectionText h s) (.opening :: h.lexeme :: (ls ++ [.closing]))
  := by
  have hkeyword : Spells h.keyword [h.lexeme] := by
    apply spells_keywordText
    rcases h with _ | k
    · decide +kernel
    · cases k <;> decide +kernel
  have hlist := (spells_parenthesized (hkeyword.append hs hapart)).blank
  have htext : " (" = " " ++ "(" := by decide +kernel
  rw [sectionText, htext]
  simp only [← String.append_assoc] at hlist
  exact hlist

/-- The text of the beginning of a description. -/
def titleText (word name : String) : String :=
  "(define (" ++ word ++ " " ++ name ++ ")"

theorem spells_title {word name : String} (hword : isWord word) (hname : isWord name) :
  Spells (titleText word name) (titleLexemes word name)
  := by
  have hlist := spells_list word hword (Spells.name hname)
  have hdefine := (Spells.name (show isWord "define" from rfl)).append hlist.blank
    (isApart_append rfl (by decide) _)
  have htext : "(define (" = "(" ++ ("define" ++ (" " ++ "(")) := by decide +kernel
  have htitle := hdefine.opening
  rw [titleText, htext]
  simp only [← String.append_assoc] at htitle ⊢
  exact htitle

/-- Texts with a blank before each of them. -/
def afterBlanks : List String → String
  | [] => ""
  | s :: ss => " " ++ s ++ afterBlanks ss

theorem isApart_afterBlanks (ss : List String) :
  isApart (afterBlanks ss)
  := by
  cases ss with
  | nil => rfl
  | cons s ss =>
    rw [afterBlanks, String.append_assoc]
    apply isApart_append rfl (by decide)

theorem spells_afterBlanks {ι : Type} {items : List ι} {text : ι → String}
    {lexemes : ι → List Lexeme} (h : ∀ x ∈ items, Spells (text x) (lexemes x)) :
  Spells (afterBlanks (items.map text)) (items.flatMap lexemes)
  := by
  induction items with
  | nil => exact Spells.empty
  | cons x items ih =>
    rw [List.forall_mem_cons] at h
    apply h.1.blank.append (ih h.2) (isApart_afterBlanks _)

/-! ### Results -/

/-- A description whose outline and whose sections are read has no errors. -/
theorem ok_of_outline {α β : Type} {r : Reader α} {tokens : List Token} {ls : List Lexeme}
    {es : List Event} {V : α → Prop} (hr : r.ReadsTo gate ls [] es V)
    (htokens : tokens.map Token.lexeme = ls) (o : α → Outline) (access : α → Gate)
    (result : α → List Section → β) {T : Option Ty} {W : β → Prop}
    (h : ∀ a, V a → ∃ ss, (o a).read (access a) T = .ok ss ∧ W (result a ss)) :
  ∃ b, (do
      let (a, _) ← (r (.start tokens)).2.mapError ([·])
      let ss ← (o a).read (access a) T
      return result a ss) = .ok b ∧ W b
  := by
  obtain ⟨a, c, houtline, ha, -⟩ := hr (.start tokens) (htokens.trans (List.append_nil ls).symm)
  obtain ⟨ss, hread, hresult⟩ := h a ha
  use result a ss
  simp [houtline, hread, hresult, Except.mapError, bind, Except.bind, pure, Except.pure]

end Outline

end PlanLang
