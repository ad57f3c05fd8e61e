import PlanLang.Proofs.Description
import PlanLang.Proofs.Gate
import PlanLang.Proofs.Layout
import PlanLang.Proofs.Reading.Section

/-!
# Reading descriptions

A section is read as it is written wherever what it needs is declared.  So a domain or a problem
whose sections are written in their layout declares what is written in the sections.
-/

namespace PlanLang

/-! ### What is needed -/

theorem Section.needs_subset_true (s : Section) (annotated : Bool) :
  s.needs annotated ⊆ s.needs true
  := by
  cases s with
  | types ds =>
    cases annotated
    · apply Finset.empty_subset
    · exact subset_rfl
  | _ => exact subset_rfl

/-- A section is read as it is written, if the gate allows what it needs. -/
theorem SectionKind.read_of_allowed {gate : Gate} {name : Token} {k : SectionKind} {s : Section}
    {ls : List Lexeme} {es : List Event} (h : s.Written name k ls es) (hs : s.hasGrammar)
    (hneeds : ∀ r ∈ s.needs true, gate.allows r) (T : Option Ty) {tokens : List Token}
    {rest : List Lexeme} (htokens : tokens.map Token.lexeme = ls ++ rest)
    (hname : k = .action → name ∈ tokens.head?) :
  ∃ c, k.read gate T tokens = .ok (s.withDefault T, c) ∧ c.lexemes = rest
  := by
  have hunlimited : Gate.AllowsFormulas .unlimited := ⟨rfl, rfl, rfl, rfl⟩
  obtain ⟨c, hread, hrest⟩ := read_of_written hunlimited h hs none htokens hname
  rw [Section.withDefault_none] at hread
  have hcheck : gate.check (k.reader (.start tokens)).1 = .ok () := by
    rw [Gate.check_ok_iff]
    intro r hr
    apply hneeds
    apply s.needs_subset_true ((c.passed tokens).any (·.kind = .dash))
    rwa [← needs_of_read hread]
  refine ⟨c, ?_, hrest⟩
  rw [read_eq, hcheck, hread]
  rfl

/-! ### Sections one after the other -/

namespace Outline

/-- The section is of the kind and declares what is written in it. -/
structure Block.Declares (b : Block) (k : SectionKind) (s : Section) : Prop where
  heading : b.heading = .contents k
  written : ∃ name es, s.Written name k ((b.inside ++ [b.closing]).map Token.lexeme) es ∧
    (k = .action → name ∈ b.inside.head?)
  grammar : s.hasGrammar

/-- The sections declare what is written in them.  Requirements are no contents. -/
inductive AreDeclared : List Block → List Section → Prop where
  | nil :
    AreDeclared [] []
  | requirements {b : Block} {bs : List Block} {ss : List Section}
    (hb : b.heading = .requirements) (hbs : AreDeclared bs ss) :
    AreDeclared (b :: bs) ss
  | contents {b : Block} {k : SectionKind} {s : Section} {bs : List Block} {ss : List Section}
    (hb : b.Declares k s) (hbs : AreDeclared bs ss) :
    AreDeclared (b :: bs) (s :: ss)

variable {gate : Gate} {T : Option Ty}

/-- A section is read from its tokens, whatever follows them. -/
theorem Block.Declares.read {b : Block} {k : SectionKind} {s : Section} (h : b.Declares k s)
    (hneeds : ∀ r ∈ s.needs true, gate.allows r) (rest : List Token) :
  ∃ c, k.read gate T (b.inside ++ b.closing :: rest) = .ok (s.withDefault T, c)
  := by
  obtain ⟨name, es, hwritten, hname⟩ := h.written
  have htokens : (b.inside ++ b.closing :: rest).map Token.lexeme
      = (b.inside ++ [b.closing]).map Token.lexeme ++ rest.map Token.lexeme := by
    simp
  have hhead : k = .action → name ∈ (b.inside ++ b.closing :: rest).head? := by
    intro hk
    exact List.mem_head?_append_of_mem_head? (hname hk)
  obtain ⟨c, hread, -⟩ := SectionKind.read_of_allowed hwritten h.grammar hneeds T htokens hhead
  exact ⟨c, hread⟩

/-- Each section that is found is read to what is written in it. -/
theorem forall₂_addBlocks {bs : List Block} {ss : List Section} (h : AreDeclared bs ss)
    (hneeds : ∀ s ∈ ss, ∀ r ∈ s.needs true, gate.allows r) {o : Outline} {read : List Section}
    (ho : List.Forall₂ (fun p s => ∃ c, SectionKind.read p.1 gate T p.2 = .ok (s, c))
      o.sections read) (rest : List Token) :
  List.Forall₂ (fun p s => ∃ c, SectionKind.read p.1 gate T p.2 = .ok (s, c))
    (o.addBlocks bs rest).sections (read ++ ss.map (Section.withDefault T))
  := by
  induction h generalizing o read with
  | nil =>
    rw [List.map_nil, List.append_nil]
    exact ho
  | requirements hb hbs ih =>
    apply ih hneeds
    rw [addBlock, hb]
    exact ho
  | @contents b k s bs ss hb hbs ih =>
    rw [List.forall_mem_cons] at hneeds
    rw [List.map_cons, List.append_cons]
    apply ih hneeds.2
    rw [addBlock, hb.heading]
    exact List.rel_append ho (.cons (hb.read hneeds.1 _) .nil)

/-- The sections of a description are read to what is written in them. -/
theorem read_ofBlocks {l : Layout} (hfirst : l.headings.head? = some .requirements)
    {bs : List Block} (hbs : l.AreWritten bs) {ss : List Section} (h : AreDeclared bs ss)
    (hneeds : ∀ s ∈ ss, ∀ r ∈ s.needs true, gate.allows r) {tokens head rest : List Token}
    (htokens : tokens = head ++ (bs.flatMap Block.tokens ++ rest)) :
  (ofBlocks tokens head.length bs).read gate T = .ok (ss.map (Section.withDefault T))
  := by
  rw [← addBlocks_empty hfirst hbs htokens]
  apply read_of_forall₂
  exact forall₂_addBlocks (o := .empty) h hneeds .nil rest

end Outline

/-! ### Descriptions -/

/-- A domain that is written in its layout is read, if it declares what its sections need. -/
theorem Domain.ofTokens_of_isWritten {T : Option Ty} {tokens : List Token} {name : Token}
    {bs : List Outline.Block} {ss : List Section} (hwritten : IsWritten tokens name bs)
    (h : Outline.AreDeclared bs ss)
    (hneeds : ∀ s ∈ ss, ∀ r ∈ s.needs true,
      (Gate.declared ((Outline.declared bs).getD .empty)).allows r) :
  ofTokens T tokens = .ok (ofSections name.name ((Outline.declared bs).getD .empty)
    (ss.map (Section.withDefault T)))
  := by
  obtain ⟨c, houtline⟩ := outline_ok_iff.mpr ⟨bs, hwritten, rfl⟩
  obtain ⟨title, q, htokens, htitle, hbs, -⟩ := hwritten
  have hread := Outline.read_ofBlocks (T := T) rfl hbs h hneeds htokens
  have havailable : (Outline.ofBlocks tokens 6 bs).available
      = (Outline.declared bs).getD .empty := rfl
  rw [htitle.length_eq] at hread
  rw [ofTokens_of_ok houtline, havailable, hread]
  rfl

/-- A problem that is written in its layout is read, if it declares what its sections need or
declares no requirements at all. -/
theorem Problem.ofTokens_of_isWritten {T : Option Ty} {tokens : List Token} {name domain : Token}
    {bs : List Outline.Block} {ss : List Section} (hwritten : IsWritten tokens name domain bs)
    (h : Outline.AreDeclared bs ss)
    (hneeds : ∀ R ∈ Outline.declared bs, ∀ s ∈ ss, ∀ r ∈ s.needs true,
      (Gate.declared R).allows r) :
  ofTokens T tokens = .ok (ofSections name.name domain.name ((Outline.declared bs).getD .empty)
    (ss.map (Section.withDefault T)))
  := by
  obtain ⟨c, houtline⟩ := outline_ok_iff.mpr ⟨bs, hwritten, rfl⟩
  obtain ⟨title, clause, q, htokens, htitle, hclause, hbs, -⟩ := hwritten
  have hgate : ∀ s ∈ ss, ∀ r ∈ s.needs true,
      (gate (.ofBlocks tokens 10 bs)).allows r := by
    rw [gate, Outline.ofBlocks]
    cases hdeclared : Outline.declared bs with
    | none => exact fun _ _ _ _ => rfl
    | some R => exact hneeds R hdeclared
  have hread := Outline.read_ofBlocks (T := T) rfl hbs h hgate htokens
  rw [List.length_append, htitle.length_eq, hclause.length_eq] at hread
  rw [ofTokens_of_ok houtline, hread]
  rfl

end PlanLang
