import Mathlib
import PlanLang.Proofs.Hierarchy
import PlanLang.Proofs.Token.Span
import PlanLang.Proofs.TypedLists

/-!
# Declared types

The types of a domain are declared in a typed list of names.  Each name that is written is declared
once more, with the type of its own group as parent, and with `object` as parent where it is in no
group.  So each of them is a subtype of all names of its parent.
-/

namespace PlanLang

/-! ### Declarations -/

namespace WrittenList

/-- The declarations of the names as types, in the order in which they are written.  The parent of a
name is the type of its group, and `object` if it is in no group. -/
def declarations (l : WrittenList) : List TypeDeclaration :=
  l.groups.flatMap (fun (names, t) => names.map fun name => ⟨name.toLower, t.ty⟩) ++
    l.trailing.map fun name => ⟨name.toLower, .object⟩

theorem toDeclarations_typedList (l : WrittenList) :
  l.typedList.toDeclarations = l.declarations
  := by
  have hitems : l.declarations
      = l.items (fun name t => TypeDeclaration.mk name (t.getD .object)) none := rfl
  rw [hitems]
  apply items_typedList
  · intro name _
    rw [TypeDeclaration.ofName, toLower_toLower]
    rfl
  · intro t name
    rfl

theorem mem_declarations_of_group {l : WrittenList} {group : List String × WrittenType}
    (hgroup : group ∈ l.groups) {name : String} (hname : name ∈ group.1) :
  ⟨name.toLower, group.2.ty⟩ ∈ l.declarations
  := by
  apply List.mem_append_left
  apply List.mem_flatMap_of_mem hgroup
  exact List.mem_map_of_mem hname

theorem mem_declarations_of_trailing {l : WrittenList} {name : String} (hname : name ∈ l.trailing) :
  ⟨name.toLower, .object⟩ ∈ l.declarations
  := by
  apply List.mem_append_right
  exact List.mem_map_of_mem hname

end WrittenList

/-- A declared type is a subtype of the names of its parent. -/
theorem Domain.isSubtype_of_mem_types {d : Domain} {name : String} {parent : Ty}
    (h : ⟨name.toLower, parent⟩ ∈ d.types) {p : String} (hp : parent.contains p) :
  d.isSubtype name p
  := by
  have hname : sameWord name name.toLower := sameWord_iff.mpr (toLower_toLower name).symm
  have hderives : TypeDeclaration.Derives d.types name p := ⟨_, h, hname, hp⟩
  rw [isSubtype, decide_eq_true_eq, hierarchy,
    (Hierarchy.records_ofDeclarations d.types).isSubtype?_eq_true_iff]
  exact ⟨.inr ⟨_, h, .inl hname⟩, .inr ⟨_, h, .inr hp⟩, .inr (.inr (.single hderives))⟩

/-! ### The section of types -/

/-- A closing parenthesis of a source is written as one. -/
theorem lexeme_of_closing {source : String} {t : Token} (ht : t ∈ tokenize source)
    (hkind : t.kind = .closing) :
  t.lexeme = .closing
  := by
  obtain ⟨_, _, -, -, hfits⟩ := (Lexer.cuts_tokens .start source.toList).exists_of_mem ht
  rw [hkind] at hfits
  have htext : t.text = ")" := String.toList_inj.mp hfits
  rw [Token.lexeme, hkind, htext]
  rfl

/-- Only a section of types declares types. -/
theorem SectionKind.declaredTypes_of_read {k : SectionKind} (hk : k ≠ .types) {gate : Gate}
    {T : Option Ty} {tokens : List Token} {s : Section} {c : Cursor}
    (h : k.read gate T tokens = .ok (s, c)) :
  s.declaredTypes = []
  := by
  obtain ⟨name, d, -, rfl⟩ := exists_result_of_read h
  cases k with
  | types => contradiction
  | _ => rfl

namespace Outline

theorem places_append (n : Nat) (bs cs : List Block) :
  places n (bs ++ cs) = places n bs ++ places (n + (bs.flatMap Block.tokens).length) cs
  := by
  induction bs generalizing n with
  | nil => rfl
  | cons b bs ih =>
    rw [List.cons_append, places, places, ih, List.append_assoc, List.flatMap_cons,
      List.length_append, Nat.add_assoc]

/-- The sections of an outline are those in front of a section, the section itself with its tokens,
and those behind it. -/
theorem sections_ofBlocks_append {tokens head rest : List Token} {before after : List Block}
    {b : Block} {k : SectionKind} (hb : b.heading = .contents k)
    (h : tokens = head ++ ((before ++ b :: after).flatMap Block.tokens ++ rest)) :
  ∃ n, (ofBlocks tokens head.length (before ++ b :: after)).sections =
    (ofBlocks tokens head.length before).sections ++
      (k, b.inside ++ b.closing :: (after.flatMap Block.tokens ++ rest)) ::
        (ofBlocks tokens n after).sections
  := by
  let m := head.length + (before.flatMap Block.tokens).length
  have htokens : tokens.drop (m + 2)
      = b.inside ++ b.closing :: (after.flatMap Block.tokens ++ rest) := by
    have hfront : tokens = (head ++ before.flatMap Block.tokens) ++
        (b.tokens ++ (after.flatMap Block.tokens ++ rest)) := by
      rw [h, List.flatMap_append, List.flatMap_cons]
      simp only [List.append_assoc]
    have hm : m = (head ++ before.flatMap Block.tokens).length := List.length_append.symm
    rw [hfront, hm, ← List.drop_drop, List.drop_left, Block.tokens]
    simp
  refine ⟨m + b.tokens.length, ?_⟩
  simp only [ofBlocks, places_append, places, hb, Heading.kind?, Option.map_some,
    Option.toList_some, List.singleton_append, List.map_append, List.map_cons]
  rw [htokens]

/-- Sections that declare no types are read without any. -/
theorem exists_read_of_ne_types {gate : Gate} {T : Option Ty}
    {ps : List (SectionKind × List Token)} (hkind : ∀ p ∈ ps, p.1 ≠ .types)
    (hread : ∀ p ∈ ps, ∃ s c, p.1.read gate T p.2 = .ok (s, c)) :
  ∃ ss, List.Forall₂ (fun p s => ∃ c, SectionKind.read p.1 gate T p.2 = .ok (s, c)) ps ss ∧
    ss.flatMap Section.declaredTypes = []
  := by
  induction ps with
  | nil => exact ⟨[], .nil, rfl⟩
  | cons p ps ih =>
    rw [List.forall_mem_cons] at hkind hread
    obtain ⟨s, c, hs⟩ := hread.1
    obtain ⟨ss, hss, htypes⟩ := ih hkind.2 hread.2
    refine ⟨s :: ss, .cons ⟨c, hs⟩ hss, ?_⟩
    rw [List.flatMap_cons, SectionKind.declaredTypes_of_read hkind.1 hs, htypes, List.nil_append]

/-- No section before or after that of types declares types. -/
theorem ne_types_of_order {before after : List Block} {b : Block}
    (hb : b.heading = .contents .types)
    (horder : (before ++ b :: after).Pairwise fun b b' =>
      Domain.layout.Precedes b.heading b'.heading) :
  ∀ b' ∈ before ++ after, b'.heading ≠ .contents .types
  := by
  have hself : ¬Domain.layout.Precedes (.contents .types) (.contents .types) := by
    rintro (hlt | ⟨-, hrepeats⟩)
    · exact Nat.lt_irrefl _ hlt
    · contradiction
  rw [List.pairwise_append, List.pairwise_cons] at horder
  obtain ⟨-, ⟨hafter, -⟩, hbefore⟩ := horder
  rw [List.forall_mem_append]
  constructor
  · intro b' hb' heq
    have hprecedes := hbefore b' hb' b List.mem_cons_self
    rw [heq, hb] at hprecedes
    exact hself hprecedes
  · intro b' hb' heq
    have hprecedes := hafter b' hb'
    rw [heq, hb] at hprecedes
    exact hself hprecedes

end Outline

/-! ### Domains -/

/-- A section of types is read as it is written. -/
theorem SectionKind.read_types {gate : Gate} (htyping : gate.allows .typing) (T : Option Ty)
    {l : WrittenList} (hl : l.IsProper) {tokens : List Token} {rest : List Lexeme}
    (htokens : tokens.map Token.lexeme = l.lexemes .name ++ [.closing] ++ rest) :
  ∃ c, types.read gate T tokens = .ok (.types l.declarations, c)
  := by
  have hwritten : Section.Written ⟨.name, "", 0, .start⟩ .types (.types l.declarations)
      (l.lexemes .name ++ [.closing])
      (Event.within (.part .types) (l.events .type (.part .subtypes))) := by
    rw [← l.toDeclarations_typedList]
    exact .types hl
  obtain ⟨c, hread, -⟩ := read_of_allowed hwritten rfl
    (Gate.allows_of_mem_typingIf htyping) T htokens (absurd · (by decide))
  exact ⟨c, hread⟩

/-- A domain declares the types that are written in its section of types, if its other sections
can be read. -/
theorem Domain.exists_ofTokens_of_types {T : Option Ty} {source : String} {name : Token}
    {bs : List Outline.Block} (hwritten : IsWritten (tokenize source) name bs) {b : Outline.Block}
    (hb : b ∈ bs) (hheading : b.heading = .contents .types) {l : WrittenList} (hl : l.IsProper)
    (hinside : b.inside.map Token.lexeme = l.lexemes .name)
    (hothers : ∀ p ∈ (Outline.ofBlocks (tokenize source) 6 bs).sections, p.1 ≠ .types →
      ∃ s c, p.1.read (.declared ((Outline.declared bs).getD .empty)) T p.2 = .ok (s, c)) :
  ∃ d, ofTokens T (tokenize source) = .ok d ∧ d.types = l.declarations
  := by
  obtain ⟨c, houtline⟩ := outline_ok_iff.mpr ⟨bs, hwritten, rfl⟩
  obtain ⟨title, q, htokens, htitle, hbs, -⟩ := hwritten
  obtain ⟨before, after, rfl⟩ := List.append_of_mem hb
  have htyping : (Gate.declared ((Outline.declared (before ++ b :: after)).getD .empty)).allows
      .typing := (Outline.has_typing_iff rfl hbs.order).mpr (hbs.typing b hb hheading)
  have hne := Outline.ne_types_of_order hheading hbs.order
  rw [List.forall_mem_append] at hne
  obtain ⟨n, hsections⟩ := Outline.sections_ofBlocks_append hheading htokens
  rw [htitle.length_eq] at hsections
  rw [hsections, List.forall_mem_append, List.forall_mem_cons] at hothers
  obtain ⟨hfront, -, hback⟩ := hothers
  -- what is in front of the section of types and behind it declares no types
  have hkinds : ∀ {m : Nat} {cs : List Outline.Block}, (∀ b' ∈ cs, b'.heading ≠ .contents .types) →
      ∀ p ∈ (Outline.ofBlocks (tokenize source) m cs).sections, p.1 ≠ .types := by
    rintro m cs hcs ⟨k, tokens⟩ hp rfl
    obtain ⟨-, b', hb', heading⟩ := Outline.mem_sections_ofBlocks hp
    exact hcs b' hb' heading
  obtain ⟨ss, hss, hssTypes⟩ := Outline.exists_read_of_ne_types (hkinds hne.1)
    fun p hp => hfront p hp (hkinds hne.1 p hp)
  obtain ⟨ss', hss', hssTypes'⟩ := Outline.exists_read_of_ne_types (hkinds hne.2)
    fun p hp => hback p hp (hkinds hne.2 p hp)
  have hmem : b.closing ∈ tokenize source := by
    rw [htokens]
    simp [Outline.Block.tokens]
  have hclosing := lexeme_of_closing hmem (hbs.blocks b hb).closing
  have hlexemes : (b.inside ++ b.closing :: (after.flatMap Outline.Block.tokens ++ [q])).map
      Token.lexeme = l.lexemes .name ++ [.closing] ++
        (after.flatMap Outline.Block.tokens ++ [q]).map Token.lexeme := by
    rw [List.map_append, List.map_cons, hinside, hclosing, List.append_assoc]
    rfl
  obtain ⟨c', htypes⟩ := SectionKind.read_types htyping T hl hlexemes
  have hread : (Outline.ofBlocks (tokenize source) 6 (before ++ b :: after)).read
      (.declared ((Outline.declared (before ++ b :: after)).getD .empty)) T
      = .ok (ss ++ .types l.declarations :: ss') := by
    apply Outline.read_of_forall₂
    rw [hsections]
    exact List.rel_append hss (.cons ⟨c', htypes⟩ hss')
  refine ⟨ofSections name.name ((Outline.declared (before ++ b :: after)).getD .empty)
    (ss ++ .types l.declarations :: ss'), ?_, ?_⟩
  · rw [ofTokens_of_ok houtline]
    exact congrArg (Except.map _) hread
  · rw [ofSections, List.flatMap_append, List.flatMap_cons, hssTypes, hssTypes']
    exact List.append_nil _

/-- A domain with a section of types is read, if its other sections are.  It has one type for each
name that is written in the section, in the order in which they are written.  The parent of a name
is the type of its group, which has the names that are written behind the dash, and `object` where
there is none.  Each type is a subtype of all names of its parent.  Such a domain declares
`:typing`, or another requirement that stands for it. -/
theorem types_declared (T : Option Ty) (source : String) (name : Token) (bs : List Outline.Block)
    (hwritten : Domain.IsWritten (tokenize source) name bs) (b : Outline.Block) (hb : b ∈ bs)
    (hheading : b.heading = .contents .types) (l : WrittenList) (hl : l.IsProper)
    (hinside : b.inside.map Token.lexeme = l.lexemes .name)
    (hothers : ∀ p ∈ (Outline.ofBlocks (tokenize source) 6 bs).sections, p.1 ≠ .types →
      ∃ s c, p.1.read (.declared ((Outline.declared bs).getD .empty)) T p.2 = .ok (s, c)) :
  ∃ d, Domain.parse T source = .ok d ∧ d.types = l.declarations ∧
    (∀ (t : WrittenType) (m : String), m ∈ t.ty.names ↔ ∃ n ∈ t.names, m = n.toLower) ∧
    (∀ group ∈ l.groups, ∀ n ∈ group.1, ∀ p, group.2.ty.contains p → d.isSubtype n p) ∧
    ∀ n ∈ l.trailing, d.isSubtype n "object"
  := by
  obtain ⟨d, hparse, htypes⟩ :=
    Domain.exists_ofTokens_of_types hwritten hb hheading hl hinside hothers
  refine ⟨d, hparse, htypes, WrittenType.mem_names_ty, ?_, ?_⟩
  · intro group hgroup n hn p hp
    apply Domain.isSubtype_of_mem_types _ hp
    rw [htypes]
    exact WrittenList.mem_declarations_of_group hgroup hn
  · intro n hn
    have hmem : ⟨n.toLower, Ty.object⟩ ∈ d.types := by
      rw [htypes]
      exact WrittenList.mem_declarations_of_trailing hn
    exact Domain.isSubtype_of_mem_types hmem (by decide +kernel)

/-- A group with a parent of two names, a name that is written twice, and a name in no group. -/
theorem types_declared_depot :
  let source := "(define (domain d) (:requirements :typing) (:types A b - (either C d) a))"
  ∃ d, Domain.parse none source = .ok d ∧
    d.types = [⟨"a", (Ty.primitive "c").insert "d"⟩, ⟨"b", (Ty.primitive "c").insert "d"⟩,
      ⟨"a", .object⟩] ∧
    d.isSubtype "A" "D" ∧ d.isSubtype "a" "object"
  := by
  intro source
  let token (kind : TokenKind) (text : String) (offset : Nat) : Token :=
    ⟨kind, text, offset, ⟨1, offset + 1⟩⟩
  let title : List Token :=
    [token .opening "(" 0, token .name "define" 1, token .opening "(" 8, token .name "domain" 9,
      token .name "d" 16, token .closing ")" 17]
  let requirements : Outline.Block :=
    ⟨token .opening "(" 19, token .keyword ":requirements" 20, .requirements,
      [token .keyword ":typing" 34], token .closing ")" 41⟩
  let types : Outline.Block :=
    ⟨token .opening "(" 43, token .keyword ":types" 44, .contents .types,
      [token .name "A" 51, token .name "b" 53, token .dash "-" 55, token .opening "(" 57,
        token .name "either" 58, token .name "C" 65, token .name "d" 67, token .closing ")" 68,
        token .name "a" 70], token .closing ")" 71⟩
  let l : WrittenList := ⟨[(["A", "b"], .either "C" ["d"])], ["a"]⟩
  have htokens : tokenize source = title ++ ([requirements, types].flatMap Outline.Block.tokens ++
      [token .closing ")" 72]) := by
    unfold source title requirements types token
    cbv
  have hl : l.IsProper := by
    constructor <;> decide +kernel
  have hbalanced : Token.AreBalanced types.inside := by
    obtain ⟨inside, q, hinside, hbalanced, -⟩ := closes_one_iff.mp
      (show closes 1 (types.inside ++ [types.closing]) from rfl)
    obtain ⟨heq, -⟩ := List.append_inj' hinside rfl
    rwa [heq]
  have hrequirements : requirements.IsWritten :=
    ⟨rfl, by decide +kernel, .of_keywords (by simp [requirements, token]), rfl,
      fun _ => by decide +kernel⟩
  have htypes : types.IsWritten := by
    refine ⟨rfl, by decide +kernel, hbalanced, rfl, ?_⟩
    intro h
    contradiction
  have hbs : Domain.layout.AreWritten [requirements, types] := by
    constructor
    · rw [List.forall_mem_cons, List.forall_mem_singleton]
      exact ⟨hrequirements, htypes⟩
    · decide
    · rw [List.pairwise_pair]
      exact .inl (by decide)
    · intro _ _ _
      exact ⟨requirements, List.mem_cons_self, rfl, .typing, by decide +kernel,
        Requirement.mem_closure_self _⟩
  have hwritten : Domain.IsWritten (tokenize source) (token .name "d" 16) [requirements, types] :=
    ⟨title, _, htokens, ⟨_, _, _, _, _, rfl, rfl, by decide +kernel, rfl, by decide +kernel, rfl,
      rfl⟩, hbs, rfl⟩
  have hothers : ∀ p ∈ (Outline.ofBlocks (tokenize source) 6 [requirements, types]).sections,
      p.1 ≠ .types → ∃ s c, p.1.read
        (.declared ((Outline.declared [requirements, types]).getD .empty)) none p.2
          = .ok (s, c) := by
    intro p hp hk
    obtain ⟨-, b, hb, hheading⟩ := Outline.mem_sections_ofBlocks hp
    rw [List.mem_pair] at hb
    rcases hb with rfl | rfl
    · contradiction
    · exact absurd (Heading.contents.inj hheading).symm hk
  obtain ⟨d, hparse, hd, -, hgroups, htrailing⟩ := types_declared none source _ _ hwritten types
    (List.mem_pair.mpr (.inr rfl)) rfl l hl (by decide +kernel) hothers
  refine ⟨d, hparse, ?_, ?_, htrailing "a" List.mem_cons_self⟩
  · rw [hd]
    decide +kernel
  · apply hgroups _ List.mem_cons_self "A" List.mem_cons_self
    decide +kernel

end PlanLang
