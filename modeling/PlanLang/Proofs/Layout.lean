import PlanLang.Proofs.Outline.Written

/-!
# Layouts

The layout of a description says in which order its sections are written.  The outline of a
description can be found if it is written as its layout asks for, and in no other case.  It then
says where the contents of each section begin.
-/

namespace PlanLang

open Outline

/-- The places in a list without duplicates grow along the list. -/
theorem pairwise_idxOf {α : Type} [DecidableEq α] {as : List α} (h : as.Nodup) :
  as.Pairwise fun a b => as.idxOf a < as.idxOf b
  := by
  rw [List.pairwise_iff_getElem]
  intro i j hi hj hlt
  rwa [h.idxOf_getElem, h.idxOf_getElem]

/-! ### Sections in order -/

/-- A section with the heading `g` may come before a section with the heading `h`. -/
def Layout.Precedes (l : Layout) (g h : Heading) : Prop :=
  l.headings.idxOf g < l.headings.idxOf h ∨ (g = h ∧ h.repeats)

/-- Among the headings that are allowed, those that may come after a heading are those that it may
come before. -/
theorem Layout.mem_following_iff {l : Layout} (hnodup : l.headings.Nodup) {allowed : List Heading}
    (hsuffix : allowed <:+ l.headings) {g h : Heading} (hallowed : h ∈ allowed) :
  g ∈ h.following allowed ↔ g ∈ allowed ∧ l.Precedes h g
  := by
  obtain ⟨front, gs, rfl, hfront⟩ := List.eq_append_cons_of_mem hallowed
  have hdrop : (front ++ h :: gs).dropWhile (· ≠ h) = h :: gs := by
    rw [List.dropWhile_append_of_pos]
    · simp
    · intro g' hg'
      have hne : g' ≠ h := by
        rintro rfl
        exact hfront hg'
      simpa using hne
  have hplaces := (pairwise_idxOf hnodup).sublist hsuffix.sublist
  obtain ⟨-, htail, hbefore⟩ := List.pairwise_append.mp hplaces
  have hafter := (List.pairwise_cons.mp htail).1
  have hself : g ∈ h.following (front ++ h :: gs) ↔ (g = h ∧ g.repeats) ∨ g ∈ gs := by
    rw [Heading.following, hdrop]
    by_cases hrepeats : h.repeats
    · simp only [hrepeats, if_true, List.mem_cons]
      constructor
      · rintro (rfl | hg)
        · exact .inl ⟨rfl, hrepeats⟩
        · exact .inr hg
      · rintro (⟨rfl, -⟩ | hg)
        · exact .inl rfl
        · exact .inr hg
    · simp only [hrepeats, Bool.false_eq_true, if_false]
      constructor
      · exact .inr
      · rintro (⟨rfl, hg⟩ | hg)
        · exact absurd hg hrepeats
        · exact hg
  rw [hself]
  constructor
  · rintro (⟨rfl, hg⟩ | hg)
    · exact ⟨hallowed, .inr ⟨rfl, hg⟩⟩
    · exact ⟨by simp [hg], .inl (hafter g hg)⟩
  · rintro ⟨hmem, hlt | ⟨rfl, hg⟩⟩
    · right
      rcases List.mem_append.mp hmem with hmem | hmem
      · have hgt := hbefore g hmem h List.mem_cons_self
        omega
      · rcases List.mem_cons.mp hmem with rfl | hmem
        · exact absurd hlt (Nat.lt_irrefl _)
        · exact hmem
    · exact .inl ⟨rfl, hg⟩

/-- The sections are written one after the other in the order of the layout.  Types are declared
only where the requirement of types is declared, or another one that stands for it. -/
structure Layout.AreWritten (l : Layout) (bs : List Block) : Prop where
  blocks : ∀ b ∈ bs, b.IsWritten
  headings : ∀ b ∈ bs, b.heading ∈ l.headings
  order : bs.Pairwise fun b b' => l.Precedes b.heading b'.heading
  typing : ∀ b ∈ bs, b.heading = .contents .types →
    ∃ b' ∈ bs, b'.heading = .requirements ∧ ∃ r ∈ b'.requirements, .typing ∈ r.closure

namespace Outline

/-- The requirements that sections declare, if there is a section of requirements. -/
def declared (bs : List Block) : Option Requirements :=
  (bs.find? (·.heading = .requirements)).map fun b => b.requirements.foldl .declare .empty

theorem declared_eq_none {bs : List Block} (h : ∀ b ∈ bs, b.heading ≠ .requirements) :
  declared bs = none
  := by
  rw [declared, Option.map_eq_none_iff, List.find?_eq_none]
  intro b hb
  simpa using h b hb

/-- If the requirements come first, then what is available behind the first section is what the
sections declare. -/
theorem declared_cons_getD {b : Block} {bs : List Block}
    (h : ∀ b' ∈ bs, b'.heading ≠ .requirements) (s : Requirements) :
  (declared (b :: bs)).getD s = b.available s
  := by
  rw [declared, Block.available]
  cases hheading : b.heading with
  | requirements => simp [hheading]
  | contents k =>
    have hrest := declared_eq_none h
    rw [declared] at hrest
    rw [List.find?_cons_of_neg (by simp [hheading]), hrest]
    rfl

theorem Block.isTyped_available {b : Block} {s : Requirements} :
  b.IsTyped (b.available s) ↔ b.IsTyped s
  := by
  rw [Block.IsTyped, Block.IsTyped, Block.available]
  cases b.heading with
  | requirements => simp
  | contents k => rfl

variable {l : Layout}

/-- Where requirements come first, no section after another one declares them. -/
theorem ne_requirements_of_precedes (hfirst : l.headings.head? = some .requirements) {b : Block}
    {bs : List Block} (h : ∀ b' ∈ bs, l.Precedes b.heading b'.heading) :
  ∀ b' ∈ bs, b'.heading ≠ .requirements
  := by
  obtain ⟨hs, hheadings⟩ := List.head?_eq_some_iff.mp hfirst
  have hplace : l.headings.idxOf .requirements = 0 := by
    rw [hheadings, List.idxOf_cons_self]
  intro b' hb' heq
  rcases h b' hb' with hlt | ⟨-, hrepeats⟩
  · rw [heq, hplace] at hlt
    exact absurd hlt (Nat.not_lt_zero _)
  · rw [heq] at hrepeats
    contradiction

/-- Sections can be read one after the other if each of them is written and comes before those that
follow it. -/
theorem follow_iff (hnodup : l.headings.Nodup) (hfirst : l.headings.head? = some .requirements)
    {allowed : List Heading} (hsuffix : allowed <:+ l.headings) {s : Requirements}
    {bs : List Block} :
  Follow allowed s bs ↔ (∀ b ∈ bs, b.IsWritten) ∧ (∀ b ∈ bs, b.heading ∈ allowed) ∧
    (bs.Pairwise fun b b' => l.Precedes b.heading b'.heading) ∧
    ∀ b ∈ bs, b.IsTyped ((declared bs).getD s)
  := by
  induction bs generalizing allowed s with
  | nil => simp [Follow.nil]
  | cons b bs ih =>
    have hnext := b.heading.following_suffix allowed
    simp only [List.forall_mem_cons, List.pairwise_cons]
    constructor
    · intro h
      cases h with
      | cons hb hallowed htyped hrest =>
        obtain ⟨hwritten, hheadings, horder, htypes⟩ := (ih (hnext.trans hsuffix)).mp hrest
        have hbefore : ∀ b' ∈ bs, b'.heading ∈ allowed ∧ l.Precedes b.heading b'.heading :=
          fun b' hb' => (l.mem_following_iff hnodup hsuffix hallowed).mp (hheadings b' hb')
        have hlater := ne_requirements_of_precedes hfirst fun b' hb' => (hbefore b' hb').2
        rw [declared_eq_none hlater] at htypes
        rw [declared_cons_getD hlater, Block.isTyped_available]
        exact ⟨⟨hb, hwritten⟩, ⟨hallowed, fun b' hb' => (hbefore b' hb').1⟩,
          ⟨fun b' hb' => (hbefore b' hb').2, horder⟩, htyped, htypes⟩
    · rintro ⟨⟨hb, hwritten⟩, ⟨hallowed, hheadings⟩, ⟨hbefore, horder⟩, htyped, htypes⟩
      have hlater := ne_requirements_of_precedes hfirst hbefore
      rw [declared_cons_getD hlater] at htyped htypes
      rw [Block.isTyped_available] at htyped
      apply Follow.cons hb hallowed htyped
      rw [ih (hnext.trans hsuffix), declared_eq_none hlater]
      exact ⟨hwritten, fun b' hb' => (l.mem_following_iff hnodup hsuffix hallowed).mpr
        ⟨hheadings b' hb', hbefore b' hb'⟩, horder, htypes⟩

/-- The requirement of types is available if a section declares it, or another one that stands for
it. -/
theorem has_typing_iff (hfirst : l.headings.head? = some .requirements) {bs : List Block}
    (horder : bs.Pairwise fun b b' => l.Precedes b.heading b'.heading) :
  ((declared bs).getD .empty).has .typing ↔
    ∃ b ∈ bs, b.heading = .requirements ∧ ∃ r ∈ b.requirements, .typing ∈ r.closure
  := by
  have hdeclared : ∀ rs : List Requirement, (rs.foldl .declare .empty : Requirements).has .typing ↔
      ∃ r ∈ rs, .typing ∈ r.closure := by
    intro rs
    have hhas : ∀ s : Requirements, s.has .typing ↔ .typing ∈ s.toList := by
      intro s
      simp [Requirements.has]
    rw [hhas, Requirements.mem_toList_foldl_declare]
    simp [Requirements.empty]
  have hempty : ¬Requirements.empty.has .typing := by decide
  cases bs with
  | nil => simpa [declared] using hempty
  | cons b bs =>
    have hlater := ne_requirements_of_precedes hfirst (List.pairwise_cons.mp horder).1
    rw [declared_cons_getD hlater, List.exists_mem_cons_iff, Block.available]
    have hnot : ¬∃ b' ∈ bs, b'.heading = .requirements ∧
        ∃ r ∈ b'.requirements, .typing ∈ r.closure := by
      rintro ⟨b', hb', heq, -⟩
      exact hlater b' hb' heq
    cases b.heading with
    | requirements => simpa [hnot] using hdeclared b.requirements
    | contents k => simpa [hnot] using hempty

theorem follow_iff_areWritten (hnodup : l.headings.Nodup)
    (hfirst : l.headings.head? = some .requirements) {bs : List Block} :
  Follow l.headings .empty bs ↔ l.AreWritten bs
  := by
  rw [follow_iff hnodup hfirst List.suffix_rfl]
  constructor
  · rintro ⟨hblocks, hheadings, horder, htypes⟩
    exact ⟨hblocks, hheadings, horder, fun b hb hk => (has_typing_iff hfirst horder).mp
      (htypes b hb hk)⟩
  · rintro ⟨hblocks, hheadings, horder, htyping⟩
    exact ⟨hblocks, hheadings, horder, fun b hb hk => (has_typing_iff hfirst horder).mpr
      (htyping b hb hk)⟩

/-! ### Places of sections -/

/-- The kinds of the sections, each with the place of the token after its keyword, where the first
section begins at the place `n`. -/
def places (n : Nat) : List Block → List (SectionKind × Nat)
  | [] => []
  | b :: bs => (b.heading.kind?.map (·, n + 2)).toList ++ places (n + b.tokens.length) bs

/-- The outline of a description that is made up of the tokens, where the first of the sections
begins at the place `n`. -/
def ofBlocks (tokens : List Token) (n : Nat) (bs : List Block) : Outline where
  requirements := declared bs
  sections := (places n bs).map fun (k, i) => (k, tokens.drop i)

/-- The sections of the outline begin at tokens of the description, under their headings. -/
theorem mem_sections_ofBlocks {tokens us : List Token} {n : Nat} {bs : List Block}
    {k : SectionKind} (h : (k, us) ∈ (ofBlocks tokens n bs).sections) :
  us <:+ tokens ∧ ∃ b ∈ bs, b.heading = .contents k
  := by
  obtain ⟨⟨k', i⟩, hmem, heq⟩ := List.mem_map.mp h
  cases heq
  refine ⟨List.drop_suffix i tokens, ?_⟩
  clear h
  induction bs generalizing n with
  | nil => contradiction
  | cons b bs ih =>
    rcases List.mem_append.mp hmem with hmem | hmem
    · refine ⟨b, List.mem_cons_self, ?_⟩
      cases hheading : b.heading with
      | requirements => simp [hheading, Heading.kind?] at hmem
      | contents k' =>
        obtain ⟨rfl, -⟩ : k = k' ∧ i = n + 2 := by simpa [hheading, Heading.kind?] using hmem
        rfl
    · obtain ⟨b', hb', hheading⟩ := ih hmem
      exact ⟨b', List.mem_cons_of_mem b hb', hheading⟩

theorem sections_addBlocks {tokens head rest : List Token} {bs : List Block}
    (h : tokens = head ++ (bs.flatMap Block.tokens ++ rest)) (o : Outline) :
  (o.addBlocks bs rest).sections
    = o.sections ++ (places head.length bs).map fun (k, i) => (k, tokens.drop i)
  := by
  induction bs generalizing head o with
  | nil => exact (List.append_nil _).symm
  | cons b bs ih =>
    rw [List.flatMap_cons, List.append_assoc] at h
    have hnext : tokens = (head ++ b.tokens) ++ (bs.flatMap Block.tokens ++ rest) := by
      rw [h, List.append_assoc]
    have hplace : tokens.drop (head.length + 2)
        = b.inside ++ b.closing :: (bs.flatMap Block.tokens ++ rest) := by
      rw [h, ← List.drop_drop, List.drop_left, Block.tokens]
      simp
    rw [addBlocks, ih hnext, places, List.length_append, List.map_append, ← List.append_assoc,
      addBlock]
    congr 1
    cases b.heading with
    | requirements => exact (List.append_nil _).symm
    | contents k =>
      simp only [Heading.kind?, Option.map_some, Option.toList_some, List.map_cons, List.map_nil,
        hplace]

theorem requirements_addBlocks {bs : List Block} (h : ∀ b ∈ bs, b.heading ≠ .requirements)
    (o : Outline) (rest : List Token) :
  (o.addBlocks bs rest).requirements = o.requirements
  := by
  induction bs generalizing o with
  | nil => rfl
  | cons b bs ih =>
    rw [List.forall_mem_cons] at h
    rw [addBlocks, ih h.2, addBlock]
    cases hheading : b.heading with
    | requirements => exact absurd hheading h.1
    | contents k => rfl

/-- The outline that is found is that of the sections that are written. -/
theorem addBlocks_empty (hfirst : l.headings.head? = some .requirements) {bs : List Block}
    (hbs : l.AreWritten bs) {tokens head rest : List Token}
    (h : tokens = head ++ (bs.flatMap Block.tokens ++ rest)) :
  empty.addBlocks bs rest = ofBlocks tokens head.length bs
  := by
  have hrequirements : (empty.addBlocks bs rest).requirements = declared bs := by
    cases bs with
    | nil => rfl
    | cons b bs =>
      have hlater := ne_requirements_of_precedes hfirst (List.pairwise_cons.mp hbs.order).1
      rw [addBlocks, requirements_addBlocks hlater, addBlock, declared]
      cases hheading : b.heading with
      | requirements => simp [hheading]
      | contents k =>
        have hrest := declared_eq_none hlater
        rw [declared] at hrest
        rw [List.find?_cons_of_neg (by simp [hheading]), hrest]
        rfl
  have hsections := sections_addBlocks h empty
  calc empty.addBlocks bs rest
      = ⟨(empty.addBlocks bs rest).requirements, (empty.addBlocks bs rest).sections⟩ := rfl
    _ = ofBlocks tokens head.length bs := by rw [hrequirements, hsections]; rfl

/-- The sections of a description and the parenthesis behind them, in the order of the layout. -/
theorem bodyTokens_iff (hnodup : l.headings.Nodup) (hfirst : l.headings.head? = some .requirements)
    {head body : List Token} {o : Outline} :
  BodyTokens l o body ↔ ∃ bs q, l.AreWritten bs ∧ q.kind = .closing ∧
    body = bs.flatMap Block.tokens ++ [q] ∧ o = ofBlocks (head ++ body) head.length bs
  := by
  constructor
  · rintro ⟨bs, q, hfollow, hq, rfl, rfl⟩
    have hbs := (follow_iff_areWritten hnodup hfirst).mp hfollow
    exact ⟨bs, q, hbs, hq, rfl, addBlocks_empty hfirst hbs rfl⟩
  · rintro ⟨bs, q, hbs, hq, rfl, rfl⟩
    exact ⟨bs, q, (follow_iff_areWritten hnodup hfirst).mpr hbs, hq, rfl,
      (addBlocks_empty hfirst hbs rfl).symm⟩

end Outline

/-! ### Names of actions -/

/-- What is read of an action is named by its first token. -/
theorem SectionKind.exists_result_of_read {k : SectionKind} {gate : Gate} {T : Option Ty}
    {tokens : List Token} {s : Section} {c : Cursor} (h : k.read gate T tokens = .ok (s, c)) :
  ∃ name d, (k = .action → name ∈ tokens.head? ∧ name.kind = .name) ∧ s = k.result name d
  := by
  obtain ⟨name, s', _, rfl, -, hname, hgrammar, hreport, -⟩ := exists_report_of_read h
  obtain ⟨note, -, hvalue⟩ := hreport.notes hgrammar T
  exact ⟨name, note (.new T), hname, hvalue.symm⟩

/-- The action has the name and the position of the token. -/
def Action.IsNamedBy (a : Action) (t : Token) : Prop :=
  t.kind = .name ∧ a.name = t.name ∧ a.position = t.position

/-- The actions that sections declare are named by the first tokens of those that are actions. -/
theorem Outline.forall₂_actions {gate : Gate} {T : Option Ty}
    {ps : List (SectionKind × List Token)} {ss : List Section}
    (h : List.Forall₂ (fun p s => ∃ c, SectionKind.read p.1 gate T p.2 = .ok (s, c)) ps ss) :
  List.Forall₂ (fun a ts => ∃ t ∈ ts.head?, Action.IsNamedBy a t)
    (ss.flatMap Section.declaredActions) ((ps.filter (·.1 = .action)).map Prod.snd)
  := by
  induction h with
  | nil => exact .nil
  | @cons p s ps ss hp _ ih =>
    obtain ⟨k, ts⟩ := p
    obtain ⟨c, hread⟩ := hp
    obtain ⟨name, d, hname, rfl⟩ := SectionKind.exists_result_of_read hread
    rw [List.flatMap_cons]
    cases k with
    | action =>
      obtain ⟨hhead, hkind⟩ := hname rfl
      exact .cons ⟨name, hhead, hkind, rfl, rfl⟩ ih
    | _ => exact ih

/-! ### Descriptions -/

/-- The tokens are those of a domain with a name and with sections. -/
def Domain.IsWritten (tokens : List Token) (name : Token) (bs : List Block) : Prop :=
  ∃ title q, tokens = title ++ (bs.flatMap Block.tokens ++ [q]) ∧
    Outline.IsTitle "domain" name title ∧ layout.AreWritten bs ∧ q.kind = .closing

/-- The tokens are those of a problem with a name, the name of its domain and with sections. -/
def Problem.IsWritten (tokens : List Token) (name domain : Token) (bs : List Block) : Prop :=
  ∃ title clause q, tokens = title ++ clause ++ (bs.flatMap Block.tokens ++ [q]) ∧
    Outline.IsTitle "problem" name title ∧ IsDomainClause domain clause ∧
    layout.AreWritten bs ∧ q.kind = .closing

/-- The outline of a domain is found exactly if the domain is written in its layout. -/
theorem Domain.outline_ok_iff {tokens : List Token} {name : Token} {o : Outline} :
  (∃ c, (outline (.start tokens)).2 = .ok ((name, o), c)) ↔
    ∃ bs, IsWritten tokens name bs ∧ o = .ofBlocks tokens 6 bs
  := by
  constructor
  · rintro ⟨c, h⟩
    obtain ⟨⟨title, body, htokens, htitle, hbody⟩, -⟩ := exhausts_outline.ok_iff.mp h
    obtain ⟨bs, q, hbs, hq, rfl, ho⟩ :=
      (bodyTokens_iff (by decide) rfl).mp hbody
    rw [htitle.length_eq] at ho
    obtain rfl : tokens = _ := htokens
    exact ⟨bs, ⟨title, q, rfl, htitle, hbs, hq⟩, ho⟩
  · rintro ⟨bs, ⟨title, q, rfl, htitle, hbs, hq⟩, rfl⟩
    rw [← htitle.length_eq]
    exact ⟨_, exhausts_outline.ok_iff.mpr ⟨⟨title, _, rfl, htitle,
      (bodyTokens_iff (by decide) rfl).mpr ⟨bs, q, hbs, hq, rfl, rfl⟩⟩,
      rfl⟩⟩

/-- The outline of a problem is found exactly if the problem is written in its layout. -/
theorem Problem.outline_ok_iff {tokens : List Token} {name domain : Token} {o : Outline} :
  (∃ c, (outline (.start tokens)).2 = .ok ((name, domain, o), c)) ↔
    ∃ bs, IsWritten tokens name domain bs ∧ o = .ofBlocks tokens 10 bs
  := by
  have hlength : ∀ {title clause}, Outline.IsTitle "problem" name title →
      IsDomainClause domain clause → (title ++ clause).length = 10 := by
    intro title clause htitle hclause
    rw [List.length_append, htitle.length_eq, hclause.length_eq]
  constructor
  · rintro ⟨c, h⟩
    obtain ⟨⟨title, clause, body, htokens, htitle, hclause, hbody⟩, -⟩ :=
      exhausts_outline.ok_iff.mp h
    obtain ⟨bs, q, hbs, hq, rfl, ho⟩ :=
      (bodyTokens_iff (by decide) rfl).mp hbody
    rw [hlength htitle hclause] at ho
    obtain rfl : tokens = _ := htokens
    exact ⟨bs, ⟨title, clause, q, rfl, htitle, hclause, hbs, hq⟩, ho⟩
  · rintro ⟨bs, ⟨title, clause, q, rfl, htitle, hclause, hbs, hq⟩, rfl⟩
    rw [← hlength htitle hclause]
    exact ⟨_, exhausts_outline.ok_iff.mpr ⟨⟨title, clause, _, rfl, htitle, hclause,
      (bodyTokens_iff (by decide) rfl).mpr ⟨bs, q, hbs, hq, rfl, rfl⟩⟩,
      rfl⟩⟩

/-- The actions of a domain are named by the tokens at the places of the sections that are
actions. -/
theorem Domain.forall₂_actions {T : Option Ty} {tokens : List Token} {d : Domain}
    (h : ofTokens T tokens = .ok d) :
  ∃ name bs, IsWritten tokens name bs ∧ d.name = name.name ∧
    List.Forall₂ (fun a i => ∃ t ∈ tokens[i]?, Action.IsNamedBy a t) d.actions
      (((Outline.places 6 bs).filter (·.1 = .action)).map Prod.snd)
  := by
  obtain ⟨name, o, c, ss, houtline, hread, rfl⟩ := exists_of_ofTokens h
  obtain ⟨bs, hwritten, rfl⟩ := outline_ok_iff.mp ⟨c, houtline⟩
  have hactions := Outline.forall₂_actions (Outline.forall₂_of_read hread)
  refine ⟨name, bs, hwritten, rfl, ?_⟩
  have hplaces : ((Outline.ofBlocks tokens 6 bs).sections.filter (·.1 = .action)).map Prod.snd
      = (((Outline.places 6 bs).filter (·.1 = .action)).map Prod.snd).map tokens.drop := by
    rw [Outline.ofBlocks, List.filter_map, List.map_map, List.map_map]
    rfl
  rw [hplaces, List.forall₂_map_right_iff] at hactions
  apply hactions.imp
  intro a i ha
  rwa [List.head?_drop] at ha

/-- The outline of a domain or of a problem is found if the source is written in the layout of such
a description, and in no other case: with a title, with sections in order whose parentheses are
balanced, with known requirements only, and with nothing behind.  It then has the places at which
the contents of the sections begin, and the actions of a domain are named by the tokens at the
places of theirs. -/
theorem outline_written (T : Option Ty) (source : String) :
  (∀ name o, (∃ c, (Domain.outline (.start (tokenize source))).2 = .ok ((name, o), c)) ↔
    ∃ bs, Domain.IsWritten (tokenize source) name bs ∧ o = .ofBlocks (tokenize source) 6 bs) ∧
  (∀ d, Domain.parse T source = .ok d →
    ∃ name bs, Domain.IsWritten (tokenize source) name bs ∧ d.name = name.name ∧
      List.Forall₂ (fun a i => ∃ t ∈ (tokenize source)[i]?, Action.IsNamedBy a t) d.actions
        (((Outline.places 6 bs).filter (·.1 = .action)).map Prod.snd)) ∧
  ∀ name domain o,
    (∃ c, (Problem.outline (.start (tokenize source))).2 = .ok ((name, domain, o), c)) ↔
      ∃ bs, Problem.IsWritten (tokenize source) name domain bs ∧
        o = .ofBlocks (tokenize source) 10 bs
  := by
  refine ⟨?_, ?_, ?_⟩
  · intro name o
    exact Domain.outline_ok_iff
  · intro d h
    exact Domain.forall₂_actions h
  · intro name domain o
    exact Problem.outline_ok_iff

/-- Types and two actions; the requirement of types is implied. -/
theorem outline_written_ferry :
  let source := "(define (domain ferry) (:requirements :adl) (:types port) " ++
    "(:action sail :parameters (?x)) (:action Board :parameters ()))"
  ∃ d, Domain.parse none source = .ok d ∧
    d.actions.map (fun a => (a.name, a.position)) = [("sail", ⟨1, 68⟩), ("board", ⟨1, 100⟩)] ∧
    ∃ name bs, Domain.IsWritten (tokenize source) name bs ∧ d.name = name.name ∧
      List.Forall₂ (fun a i => ∃ t ∈ (tokenize source)[i]?, Action.IsNamedBy a t) d.actions
        (((Outline.places 6 bs).filter (·.1 = .action)).map Prod.snd)
  := by
  intro source
  have hparse : (Domain.parse none ("(define (domain ferry) (:requirements :adl) (:types port) " ++
      "(:action sail :parameters (?x)) (:action Board :parameters ()))")).map
        (·.actions.map fun a => (a.name, a.position))
      = .ok [("sail", ⟨1, 68⟩), ("board", ⟨1, 100⟩)] := by
    cbv
  cases h : Domain.parse none source with
  | error es =>
    rw [h] at hparse
    contradiction
  | ok d =>
    rw [h] at hparse
    exact ⟨d, rfl, Except.ok.inj hparse, (outline_written none source).2.1 d h⟩

end PlanLang
