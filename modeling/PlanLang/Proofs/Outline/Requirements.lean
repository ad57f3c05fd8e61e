import Mathlib
import PlanLang.Proofs.Description
import PlanLang.Proofs.Layout
import PlanLang.Proofs.Token.Alike

/-!
# Sections of requirements

The requirements of a description are those that its keywords declare and all that these stand for.
They are listed once and in a fixed order, however often and in which order they are declared.  The
first keyword that declares no requirement is refused.
-/

namespace PlanLang

open Reader

/-! ### Keywords -/

/-- A keyword declares one requirement at most, whatever the case of its letters. -/
theorem Token.isKeyword_keyword_iff {t : Token} {r : Requirement} :
  t.isKeyword r.keyword ↔ t.kind = .keyword ∧ t.requirement? = some r
  := by
  rw [isKeyword, Bool.and_eq_true, decide_eq_true_eq, requirement?]
  apply and_congr_right
  intro _
  constructor
  · intro h
    rw [Requirement.ofKeyword?_congr h, Requirement.ofKeyword?_keyword]
  · intro h
    have hword : sameWord r.keyword t.text := by
      simpa using List.find?_some h
    exact sameWord_symm hword

/-- The token is a keyword, but not one that declares a requirement. -/
def Token.IsForeign (t : Token) : Prop :=
  t.kind = .keyword ∧ ∀ r : Requirement, ¬t.isKeyword r.keyword

theorem Token.IsForeign.requirement?_eq_none {t : Token} (h : t.IsForeign) :
  t.requirement? = none
  := by
  rw [Option.eq_none_iff_forall_ne_some]
  intro r hr
  exact h.2 r (isKeyword_keyword_iff.mpr ⟨h.1, hr⟩)

/-- The tokens are the keywords of the requirements, one after the other. -/
def Token.Declare (ts : List Token) (rs : List Requirement) : Prop :=
  List.Forall₂ (fun t r => t.isKeyword (Requirement.keyword r)) ts rs

namespace Token.Declare

variable {ts : List Token} {rs : List Requirement}

theorem forall_mem (h : Declare ts rs) :
  ∀ t ∈ ts, t.kind = .keyword ∧ t.requirement?.isSome
  := by
  induction h with
  | nil => exact nofun
  | cons ht _ ih =>
    obtain ⟨hkind, hr⟩ := isKeyword_keyword_iff.mp ht
    rw [List.forall_mem_cons]
    exact ⟨⟨hkind, Option.isSome_of_eq_some hr⟩, ih⟩

theorem filterMap_eq (h : Declare ts rs) :
  ts.filterMap Token.requirement? = rs
  := by
  induction h with
  | nil => rfl
  | cons ht _ ih => rw [List.filterMap_cons_some (isKeyword_keyword_iff.mp ht).2, ih]

end Token.Declare

/-! ### Reading the section -/

namespace Outline

variable {a k q t : Token} {ts back : List Token} {rs : List Requirement}

theorem isWritten_requirements (ha : a.kind = .opening) (hk : k.isKeyword ":requirements")
    (hts : Token.Declare ts rs) (hq : q.kind = .closing) :
  (Block.mk a k .requirements ts q).IsWritten
  := ⟨ha, hk, .of_keywords fun t ht => (hts.forall_mem t ht).1, hq, fun _ => hts.forall_mem⟩

theorem requirement_of_isForeign (ht : t.IsForeign) (s : Requirements) (last : Position) :
  (requirement s ⟨t :: back, last⟩).2
    = .error ⟨t.position, .expected (some t.text) ["requirement"]⟩
  := by
  have hread : (expectKind .keyword ⟨t :: back, last⟩).2 = .ok (t, ⟨back, t.position⟩) := by
    simp [expectKind, expect, ht.1]
  have hnone : Requirement.ofKeyword? t.text = none := ht.requirement?_eq_none
  rw [requirement, (bind_of_ok _ hread).2, hnone]
  rfl

/-- Keywords of requirements are gone past, up to the first keyword that is none. -/
theorem requirements_of_isForeign (hts : Token.Declare ts rs) (ht : t.IsForeign) {n : Nat}
    (hn : ts.length ≤ n) (s : Requirements) (last : Position) :
  (untilClosingWithin requirement n s ⟨ts ++ t :: back, last⟩).2
    = .error ⟨t.position, .expected (some t.text) ["requirement"]⟩
  := by
  have hkeyword : ∀ {u : Token} {us}, u.kind = .keyword →
      ∀ v ∈ (u :: us).head?, v.kind ≠ .closing := by
    rintro u us hu v ⟨⟩
    rw [hu]
    decide
  induction hts generalizing n s last with
  | nil =>
    cases n with
    | zero => exact requirement_of_isForeign ht s last
    | succ n =>
      rw [List.nil_append, untilClosingWithin_step requirement n s (hkeyword ht.1)]
      exact (bind_of_error _ (requirement_of_isForeign ht s last)).2
  | @cons u r ts rs hu _ ih =>
    obtain ⟨n, rfl⟩ := Nat.exists_eq_add_one_of_ne_zero (Nat.ne_zero_of_lt hn)
    obtain ⟨hkind, hr⟩ := Token.isKeyword_keyword_iff.mp hu
    have hfirst := (recognizes_requirement s).append ⟨u, r, ⟨hkind, hr⟩, rfl, rfl⟩
      (ts ++ t :: back) last
    rw [List.cons_append, untilClosingWithin_step requirement n s (hkeyword hkind)]
    exact ((bind_of_ok _ hfirst).2).trans (ih (Nat.le_of_succ_le_succ hn) _ _)

variable {l : Layout}

/-- The section is read where it stands first. -/
theorem nextSection_requirements (hfirst : l.headings.head? = some .requirements)
    (ha : a.kind = .opening) (hk : k.isKeyword ":requirements") (hts : Token.Declare ts rs)
    (hq : q.kind = .closing) (back : List Token) (last : Position) :
  (nextSection l.unsupported (l.headings, empty) ⟨a :: k :: (ts ++ q :: back), last⟩).2
    = .ok ((Heading.requirements.following l.headings, ⟨some (rs.foldl .declare .empty), []⟩),
      ⟨back, q.position⟩)
  := by
  have hread := nextSection_of_isWritten l.unsupported (o := empty)
    (isWritten_requirements ha hk hts hq) (List.mem_of_mem_head? hfirst) nofun back last
  rw [addBlock, Block.requirements, hts.filterMap_eq, Block.tokens] at hread
  rw [List.cons_append, List.cons_append, List.append_assoc, List.singleton_append] at hread
  exact hread

/-- What a description has available is what its section of requirements declares. -/
theorem areDeclaredBy_of_body (hnodup : l.headings.Nodup)
    (hfirst : l.headings.head? = some .requirements) (hk : k.isKeyword ":requirements")
    (hts : Token.Declare ts rs) (hq : q.kind = .closing) {last : Position} {o : Outline}
    {c : Cursor} (h : (body l ⟨a :: k :: (ts ++ q :: back), last⟩).2 = .ok (o, c)) :
  o.available.AreDeclaredBy rs
  := by
  obtain ⟨⟨bs, q', hfollow, -, htokens, rfl⟩, -⟩ := (exhausts_body l).ok_iff.mp h
  have hbs := (follow_iff_areWritten hnodup hfirst).mp hfollow
  rw [addBlocks_empty hfirst hbs (List.nil_append _).symm, available, ofBlocks]
  cases bs with
  | nil => simp at htokens
  | cons b bs =>
    have hb := hbs.blocks b List.mem_cons_self
    simp only [List.flatMap_cons, Block.tokens, List.cons_append, List.append_assoc,
      List.cons.injEq] at htokens
    obtain ⟨rfl, rfl, htokens⟩ := htokens
    have hheading : b.heading = .requirements := Heading.eq_of_isKeyword hb.keyword hk
    -- both sections go as far as the tokens are keywords
    have hinside : b.inside = ts := by
      have hcut := congrArg (List.takeWhile fun t : Token => t.kind = .keyword) htokens
      rw [List.takeWhile_append_of_pos, List.takeWhile_append_of_pos] at hcut
      · simpa [hq, hb.closing] using hcut.symm
      · intro t ht
        exact decide_eq_true (hb.requirements hheading t ht).1
      · intro t ht
        exact decide_eq_true (hts.forall_mem t ht).1
    have hlater := ne_requirements_of_precedes hfirst (List.pairwise_cons.mp hbs.order).1
    rw [declared_cons_getD hlater, Block.available, hheading]
    simp only
    rw [Block.requirements, hinside, hts.filterMap_eq]
    apply Requirements.areDeclaredBy_foldl

/-- A description that consists of the section has an outline. -/
theorem body_requirements (hfirst : l.headings.head? = some .requirements)
    (ha : a.kind = .opening) (hk : k.isKeyword ":requirements") (hts : Token.Declare ts rs)
    (hq : q.kind = .closing) {q' : Token} (hq' : q'.kind = .closing) (last : Position) :
  ∃ o c, (body l ⟨a :: k :: (ts ++ [q, q']), last⟩).2 = .ok (o, c) ∧ o.sections = []
  := by
  have hfollow : Follow l.headings .empty [⟨a, k, .requirements, ts, q⟩] :=
    .cons (isWritten_requirements ha hk hts hq) (List.mem_of_mem_head? hfirst) nofun .nil
  have hbody : BodyTokens l _ (a :: k :: (ts ++ [q, q'])) :=
    ⟨_, q', hfollow, hq', by simp [Block.tokens], rfl⟩
  exact ⟨_, _, (exhausts_body l).ok_iff.mpr ⟨hbody, rfl⟩, rfl⟩

/-- A keyword that declares no requirement is refused. -/
theorem body_of_isForeign (hfirst : l.headings.head? = some .requirements)
    (ha : a.kind = .opening) (hk : k.isKeyword ":requirements") (hts : Token.Declare ts rs)
    (ht : t.IsForeign) (back : List Token) (last : Position) :
  (body l ⟨a :: k :: (ts ++ t :: back), last⟩).2
    = .error ⟨t.position, .expected (some t.text) ["requirement"]⟩
  := by
  have hwritten : ∃ s u : Token, s.kind = .opening ∧ u.isKeyword Heading.requirements.keyword ∧
      .requirements ∈ l.headings ∧ [a, k] = [s, u] :=
    ⟨a, k, ha, hk, List.mem_of_mem_head? hfirst, rfl⟩
  have hheading :=
    (recognizes_heading l.unsupported l.headings).append hwritten (ts ++ t :: back) last
  have henter : ∀ o last, (enter o .requirements ⟨ts ++ t :: back, last⟩).2
      = .error ⟨t.position, .expected (some t.text) ["requirement"]⟩ := by
    intro o last
    apply (bind_of_error _ _).2
    apply requirements_of_isForeign hts ht
    rw [List.length_append]
    apply Nat.le_add_right
  have hhead : ∀ u ∈ (a :: k :: (ts ++ t :: back)).head?, u.kind ≠ .closing := by
    rintro u ⟨⟩
    rw [ha]
    decide
  apply (bind_of_error _ _).2
  rw [untilClosing, List.length_cons, untilClosingWithin_step _ _ _ hhead]
  apply (bind_of_error _ _).2
  rw [nextSection]
  exact ((bind_of_ok _ hheading).2).trans (bind_of_error _ (henter _ _)).2

end Outline

/-! ### Descriptions -/

/-- The tokens stand in front of the sections of a domain. -/
def Domain.IsFront (front : List Token) : Prop :=
  ∃ name, Outline.IsTitle "domain" name front

/-- The tokens stand in front of the sections of a problem. -/
def Problem.IsFront (front : List Token) : Prop :=
  ∃ name domain title clause, front = title ++ clause ∧ Outline.IsTitle "problem" name title ∧
    IsDomainClause domain clause

variable {T : Option Ty} {front rest : List Token}

/-- The outline of a domain is that of its sections. -/
theorem Domain.outline_of_isFront (h : IsFront front) (rest : List Token) :
  ∃ name last, (outline (.start (front ++ rest))).2
    = ((Outline.body layout >>= fun o => pure (name, o)) ⟨rest, last⟩).2
  := by
  obtain ⟨name, htitle⟩ := h
  have hread := (Outline.recognizes_title "domain").append htitle rest .start
  exact ⟨name, _, (bind_of_ok _ hread).2⟩

/-- The outline of a problem is that of its sections. -/
theorem Problem.outline_of_isFront (h : IsFront front) (rest : List Token) :
  ∃ name domain last, (outline (.start (front ++ rest))).2
    = ((Outline.body layout >>= fun o => pure (name, domain, o)) ⟨rest, last⟩).2
  := by
  obtain ⟨name, domain, title, clause, rfl, htitle, hclause⟩ := h
  obtain ⟨a, b, c, rfl, ha, hb, hdomain, hc⟩ := hclause
  have hread := (Outline.recognizes_title "problem").append htitle ([a, b, domain, c] ++ rest) .start
  have hopening := recognizes_opening.append (a := ()) ⟨a, ha, rfl⟩ ([b, domain, c] ++ rest)
  have hkeyword := (recognizes_expectAfter (·.isKeyword ":domain") [":domain"]).append
    ⟨hb, rfl⟩ ([domain, c] ++ rest)
  have hname := (recognizes_expectKind .name).append ⟨hdomain, rfl⟩ ([c] ++ rest)
  have hclosing := recognizes_closing.append (a := ()) ⟨c, hc, rfl⟩ rest
  refine ⟨name, domain, c.position, ?_⟩
  rw [outline, List.append_assoc]
  apply (bind_of_ok _ hread).2.trans
  apply (bind_of_ok _ (hopening _)).2.trans
  apply (bind_of_ok _ (hkeyword _)).2.trans
  apply (bind_of_ok _ (hname _)).2.trans
  exact (bind_of_ok _ (hclosing _)).2

variable {a k q t : Token} {ts back : List Token} {rs : List Requirement}

namespace Domain

theorem areDeclaredBy_of_ofTokens (hfront : IsFront front) (hk : k.isKeyword ":requirements")
    (hts : Token.Declare ts rs) (hq : q.kind = .closing) {d : Domain}
    (h : ofTokens T (front ++ a :: k :: (ts ++ q :: back)) = .ok d) :
  d.requirements.AreDeclaredBy rs
  := by
  obtain ⟨name, last, hfound⟩ := outline_of_isFront hfront (a :: k :: (ts ++ q :: back))
  obtain ⟨_, o, c, ss, houtline, -, rfl⟩ := exists_of_ofTokens h
  rw [hfound] at houtline
  obtain ⟨_, hbody, hpure⟩ := exists_of_bind_pure houtline
  cases hpure
  exact Outline.areDeclaredBy_of_body (by decide) rfl hk hts hq hbody

theorem exists_ofTokens_of_requirements (hfront : IsFront front) (ha : a.kind = .opening)
    (hk : k.isKeyword ":requirements") (hts : Token.Declare ts rs) (hq : q.kind = .closing)
    {q' : Token} (hq' : q'.kind = .closing) :
  ∃ d, ofTokens T (front ++ a :: k :: (ts ++ [q, q'])) = .ok d
  := by
  obtain ⟨name, last, hfound⟩ := outline_of_isFront hfront (a :: k :: (ts ++ [q, q']))
  obtain ⟨o, c, hbody, hsections⟩ :=
    Outline.body_requirements (l := layout) rfl ha hk hts hq hq' last
  have houtline := hfound.trans (bind_of_ok _ hbody).2
  rw [ofTokens_of_ok houtline, Outline.read, hsections]
  exact ⟨_, rfl⟩

theorem ofTokens_of_isForeign (hfront : IsFront front) (ha : a.kind = .opening)
    (hk : k.isKeyword ":requirements") (hts : Token.Declare ts rs) (ht : t.IsForeign)
    (back : List Token) :
  ofTokens T (front ++ a :: k :: (ts ++ t :: back))
    = .error [⟨t.position, .expected (some t.text) ["requirement"]⟩]
  := by
  obtain ⟨name, last, hfound⟩ := outline_of_isFront hfront (a :: k :: (ts ++ t :: back))
  apply ofTokens_of_error
  apply hfound.trans
  exact (bind_of_error _ (Outline.body_of_isForeign rfl ha hk hts ht back last)).2

end Domain

namespace Problem

theorem areDeclaredBy_of_ofTokens (hfront : IsFront front) (hk : k.isKeyword ":requirements")
    (hts : Token.Declare ts rs) (hq : q.kind = .closing) {p : Problem}
    (h : ofTokens T (front ++ a :: k :: (ts ++ q :: back)) = .ok p) :
  p.requirements.AreDeclaredBy rs
  := by
  obtain ⟨name, domain, last, hfound⟩ := outline_of_isFront hfront (a :: k :: (ts ++ q :: back))
  obtain ⟨_, _, o, c, ss, houtline, -, rfl⟩ := exists_of_ofTokens h
  rw [hfound] at houtline
  obtain ⟨_, hbody, hpure⟩ := exists_of_bind_pure houtline
  cases hpure
  exact Outline.areDeclaredBy_of_body (by decide) rfl hk hts hq hbody

theorem exists_ofTokens_of_requirements (hfront : IsFront front) (ha : a.kind = .opening)
    (hk : k.isKeyword ":requirements") (hts : Token.Declare ts rs) (hq : q.kind = .closing)
    {q' : Token} (hq' : q'.kind = .closing) :
  ∃ p, ofTokens T (front ++ a :: k :: (ts ++ [q, q'])) = .ok p
  := by
  obtain ⟨name, domain, last, hfound⟩ := outline_of_isFront hfront (a :: k :: (ts ++ [q, q']))
  obtain ⟨o, c, hbody, hsections⟩ :=
    Outline.body_requirements (l := layout) rfl ha hk hts hq hq' last
  have houtline := hfound.trans (bind_of_ok _ hbody).2
  rw [ofTokens_of_ok houtline, Outline.read, hsections]
  exact ⟨_, rfl⟩

theorem ofTokens_of_isForeign (hfront : IsFront front) (ha : a.kind = .opening)
    (hk : k.isKeyword ":requirements") (hts : Token.Declare ts rs) (ht : t.IsForeign)
    (back : List Token) :
  ofTokens T (front ++ a :: k :: (ts ++ t :: back))
    = .error [⟨t.position, .expected (some t.text) ["requirement"]⟩]
  := by
  obtain ⟨name, domain, last, hfound⟩ := outline_of_isFront hfront (a :: k :: (ts ++ t :: back))
  apply ofTokens_of_error
  apply hfound.trans
  exact (bind_of_error _ (Outline.body_of_isForeign rfl ha hk hts ht back last)).2

end Problem

/-- A section of requirements may declare any requirements, in any order, any number of times and in
letters of either case.  It is read, and the domain or problem lists what these requirements stand
for.  The first keyword that declares no requirement is refused with a single error. -/
theorem parse_and_requirements (T : Option Ty) (source : String)
    (ha : a.kind = .opening) (hk : k.isKeyword ":requirements") (hts : Token.Declare ts rs) :
  (∀ q back, q.kind = .closing →
    (∀ l ∈ [Domain.layout, Problem.layout], ∀ last, ∃ s : Requirements, s.AreDeclaredBy rs ∧
      (Outline.nextSection l.unsupported (l.headings, .empty)
          ⟨a :: k :: (ts ++ q :: back), last⟩).2
        = .ok ((l.headings.tail, ⟨some s, []⟩), ⟨back, q.position⟩)) ∧
    ∀ front, tokenize source = front ++ a :: k :: (ts ++ q :: back) →
      (Domain.IsFront front →
        (∀ d, Domain.parse T source = .ok d → d.requirements.AreDeclaredBy rs) ∧
        ∀ q', q'.kind = .closing → back = [q'] → ∃ d, Domain.parse T source = .ok d) ∧
      (Problem.IsFront front →
        (∀ p, Problem.parse T source = .ok p → p.requirements.AreDeclaredBy rs) ∧
        ∀ q', q'.kind = .closing → back = [q'] → ∃ p, Problem.parse T source = .ok p)) ∧
  ∀ t back front, t.IsForeign → tokenize source = front ++ a :: k :: (ts ++ t :: back) →
    (Domain.IsFront front → Domain.parse T source
      = .error [⟨t.position, .expected (some t.text) ["requirement"]⟩]) ∧
    (Problem.IsFront front → Problem.parse T source
      = .error [⟨t.position, .expected (some t.text) ["requirement"]⟩])
  := by
  refine ⟨?_, ?_⟩
  · intro q back hq
    refine ⟨?_, ?_⟩
    · intro l hl last
      have hlayout : l.headings.head? = some .requirements ∧
          Heading.requirements.following l.headings = l.headings.tail := by
        simp only [List.mem_cons, List.not_mem_nil, or_false] at hl
        rcases hl with rfl | rfl <;> decide
      rw [← hlayout.2]
      exact ⟨_, Requirements.areDeclaredBy_foldl rs,
        Outline.nextSection_requirements hlayout.1 ha hk hts hq back last⟩
    · intro front htokens
      rw [Domain.parse, Problem.parse, htokens]
      refine ⟨fun hfront => ⟨?_, ?_⟩, fun hfront => ⟨?_, ?_⟩⟩
      · intro d h
        exact Domain.areDeclaredBy_of_ofTokens hfront hk hts hq h
      · rintro q' hq' rfl
        exact Domain.exists_ofTokens_of_requirements hfront ha hk hts hq hq'
      · intro p h
        exact Problem.areDeclaredBy_of_ofTokens hfront hk hts hq h
      · rintro q' hq' rfl
        exact Problem.exists_ofTokens_of_requirements hfront ha hk hts hq hq'
  · intro t back front ht htokens
    rw [Domain.parse, Problem.parse, htokens]
    constructor
    · intro hfront
      exact Domain.ofTokens_of_isForeign hfront ha hk hts ht back
    · intro hfront
      exact Problem.ofTokens_of_isForeign hfront ha hk hts ht back

/-- A domain that declares requirements that stand for others, one of them twice, and a problem with
a word that is not quite the keyword of one. -/
theorem parse_and_requirements_chain :
  let domain := "(define (domain d) (:requirements :Fluents :adl :fluents))"
  let problem := "(define (problem p) (:domain d) (:requirements :typing :strip))"
  (∃ d, Domain.parse none domain = .ok d ∧
    d.requirements.AreDeclaredBy [.fluents, .adl, .fluents] ∧
    d.requirements.toList = [.strips, .typing, .equality, .negativePreconditions,
      .disjunctivePreconditions, .existentialPreconditions, .universalPreconditions,
      .quantifiedPreconditions, .conditionalEffects, .fluents, .numericFluents, .objectFluents,
      .adl]) ∧
  Problem.parse none problem = .error [⟨⟨1, 56⟩, .expected (some ":strip") ["requirement"]⟩]
  := by
  intro domain problem
  constructor
  · have htokens : tokenize domain
        = [⟨.opening, "(", 0, ⟨1, 1⟩⟩, ⟨.name, "define", 1, ⟨1, 2⟩⟩, ⟨.opening, "(", 8, ⟨1, 9⟩⟩,
            ⟨.name, "domain", 9, ⟨1, 10⟩⟩, ⟨.name, "d", 16, ⟨1, 17⟩⟩,
            ⟨.closing, ")", 17, ⟨1, 18⟩⟩]
          ++ ⟨.opening, "(", 19, ⟨1, 20⟩⟩ :: ⟨.keyword, ":requirements", 20, ⟨1, 21⟩⟩
          :: ([⟨.keyword, ":Fluents", 34, ⟨1, 35⟩⟩, ⟨.keyword, ":adl", 43, ⟨1, 44⟩⟩,
              ⟨.keyword, ":fluents", 48, ⟨1, 49⟩⟩]
            ++ ⟨.closing, ")", 56, ⟨1, 57⟩⟩ :: [⟨.closing, ")", 57, ⟨1, 58⟩⟩]) := by
      subst domain
      cbv
    have hfront : Domain.IsFront [⟨.opening, "(", 0, ⟨1, 1⟩⟩, ⟨.name, "define", 1, ⟨1, 2⟩⟩,
        ⟨.opening, "(", 8, ⟨1, 9⟩⟩, ⟨.name, "domain", 9, ⟨1, 10⟩⟩, ⟨.name, "d", 16, ⟨1, 17⟩⟩,
        ⟨.closing, ")", 17, ⟨1, 18⟩⟩] :=
      ⟨_, _, _, _, _, _, rfl, rfl, by decide +kernel, rfl, by decide +kernel, rfl, rfl⟩
    have hkeywords : Token.Declare [⟨.keyword, ":Fluents", 34, ⟨1, 35⟩⟩,
        ⟨.keyword, ":adl", 43, ⟨1, 44⟩⟩, ⟨.keyword, ":fluents", 48, ⟨1, 49⟩⟩]
        [.fluents, .adl, .fluents] :=
      .cons (by decide +kernel) (.cons (by decide +kernel) (.cons (by decide +kernel) .nil))
    obtain ⟨hrequirements, haccepted⟩ :=
      ((((parse_and_requirements none domain rfl (by decide +kernel) hkeywords).1 _ _ rfl).2 _
        htokens).1 hfront)
    obtain ⟨d, hd⟩ := haccepted _ rfl rfl
    refine ⟨d, hd, hrequirements d hd, ?_⟩
    rw [(hrequirements d hd).toList]
    cbv
  · have htokens : tokenize problem
        = [⟨.opening, "(", 0, ⟨1, 1⟩⟩, ⟨.name, "define", 1, ⟨1, 2⟩⟩, ⟨.opening, "(", 8, ⟨1, 9⟩⟩,
            ⟨.name, "problem", 9, ⟨1, 10⟩⟩, ⟨.name, "p", 17, ⟨1, 18⟩⟩,
            ⟨.closing, ")", 18, ⟨1, 19⟩⟩, ⟨.opening, "(", 20, ⟨1, 21⟩⟩,
            ⟨.keyword, ":domain", 21, ⟨1, 22⟩⟩, ⟨.name, "d", 29, ⟨1, 30⟩⟩,
            ⟨.closing, ")", 30, ⟨1, 31⟩⟩]
          ++ ⟨.opening, "(", 32, ⟨1, 33⟩⟩ :: ⟨.keyword, ":requirements", 33, ⟨1, 34⟩⟩
          :: ([⟨.keyword, ":typing", 47, ⟨1, 48⟩⟩]
            ++ ⟨.keyword, ":strip", 55, ⟨1, 56⟩⟩
            :: [⟨.closing, ")", 61, ⟨1, 62⟩⟩, ⟨.closing, ")", 62, ⟨1, 63⟩⟩]) := by
      subst problem
      cbv
    have hfront : Problem.IsFront [⟨.opening, "(", 0, ⟨1, 1⟩⟩, ⟨.name, "define", 1, ⟨1, 2⟩⟩,
        ⟨.opening, "(", 8, ⟨1, 9⟩⟩, ⟨.name, "problem", 9, ⟨1, 10⟩⟩, ⟨.name, "p", 17, ⟨1, 18⟩⟩,
        ⟨.closing, ")", 18, ⟨1, 19⟩⟩, ⟨.opening, "(", 20, ⟨1, 21⟩⟩,
        ⟨.keyword, ":domain", 21, ⟨1, 22⟩⟩, ⟨.name, "d", 29, ⟨1, 30⟩⟩,
        ⟨.closing, ")", 30, ⟨1, 31⟩⟩] :=
      ⟨_, _, [_, _, _, _, _, _], [_, _, _, _], rfl,
        ⟨_, _, _, _, _, rfl, rfl, by decide +kernel, rfl, by decide +kernel, rfl, rfl⟩,
        _, _, _, rfl, rfl, by decide +kernel, rfl, rfl⟩
    have hkeywords : Token.Declare [⟨.keyword, ":typing", 47, ⟨1, 48⟩⟩] [.typing] :=
      .cons (by decide +kernel) .nil
    have hforeign : Token.IsForeign ⟨.keyword, ":strip", 55, ⟨1, 56⟩⟩ := by
      refine ⟨rfl, fun r => ?_⟩
      cases r <;> decide +kernel
    exact ((parse_and_requirements none problem rfl (by decide +kernel) hkeywords).2 _ _ _
      hforeign htokens).2 hfront

end PlanLang
