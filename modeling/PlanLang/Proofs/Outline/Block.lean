import PlanLang.Proofs.Outline.Order
import PlanLang.Proofs.Reader.Recognition

/-!
# Sections as they are written

A section is written as a keyword and its contents between parentheses, and the parentheses of the
contents are balanced.  A section that is written like this, and no other one, is read where its
heading is allowed.
-/

namespace PlanLang

/-! ### Balanced tokens -/

/-- Tokens in which each parenthesis has the one that it belongs to. -/
inductive Token.AreBalanced : List Token → Prop where
  | nil :
    AreBalanced []
  | single {t : Token} (hopening : t.kind ≠ .opening) (hclosing : t.kind ≠ .closing) :
    AreBalanced [t]
  | append {ts us : List Token} (h : AreBalanced ts) (h' : AreBalanced us) :
    AreBalanced (ts ++ us)
  | parenthesized {s t : Token} {ts : List Token} (hs : s.kind = .opening) (h : AreBalanced ts)
    (ht : t.kind = .closing) :
    AreBalanced (s :: (ts ++ [t]))

theorem Token.AreBalanced.of_keywords {ts : List Token} (h : ∀ t ∈ ts, t.kind = .keyword) :
  AreBalanced ts
  := by
  induction ts with
  | nil => exact .nil
  | cons t ts ih =>
    rw [List.forall_mem_cons] at h
    have hsingle : AreBalanced [t] := by
      apply AreBalanced.single <;> rw [h.1] <;> exact nofun
    exact hsingle.append (ih h.2)

theorem TokenKind.depthAfter_of_ne {kind : TokenKind} (hopening : kind ≠ .opening)
    (hclosing : kind ≠ .closing) (n : Nat) :
  kind.depthAfter n = n + 1
  := by
  cases kind <;> first | rfl | contradiction

/-- Balanced tokens leave open what is open before them. -/
theorem Token.AreBalanced.closes_append {ts : List Token} (h : AreBalanced ts) (n : Nat)
    (rest : List Token) :
  closes (n + 1) (ts ++ rest) = closes (n + 1) rest
  := by
  induction h generalizing n rest with
  | nil => rfl
  | single hopening hclosing =>
    rw [List.singleton_append, closes, TokenKind.depthAfter_of_ne hopening hclosing]
  | append _ _ ih ih' => rw [List.append_assoc, ih, ih']
  | @parenthesized s t ts hs _ ht ih =>
    rw [List.cons_append, closes, hs, TokenKind.depthAfter, List.append_assoc, ih,
      List.singleton_append, closes, ht, TokenKind.depthAfter]

/-- Tokens that close one parenthesis more than others are balanced up to the first that they
close. -/
theorem exists_balanced_of_closes {n : Nat} {ts : List Token} (h : closes (n + 1) ts) :
  ∃ inside q rest, ts = inside ++ q :: rest ∧ Token.AreBalanced inside ∧ q.kind = .closing ∧
    closes n rest
  := by
  induction hlength : ts.length using Nat.strong_induction_on generalizing n ts with
  | _ N ih =>
    cases ts with
    | nil => contradiction
    | cons t ts =>
      rw [List.length_cons] at hlength
      rw [closes] at h
      by_cases hclosing : t.kind = .closing
      · rw [hclosing, TokenKind.depthAfter] at h
        exact ⟨[], t, ts, rfl, .nil, hclosing, h⟩
      by_cases hopening : t.kind = .opening
      · -- the tokens close an inner list first
        rw [hopening, TokenKind.depthAfter] at h
        obtain ⟨inner, s, ts', rfl, hinner, hs, h⟩ := ih ts.length (by omega) h rfl
        rw [List.length_append, List.length_cons] at hlength
        obtain ⟨inside, q, rest, rfl, hinside, hq, h⟩ := ih ts'.length (by omega) h rfl
        have hlist : Token.AreBalanced (t :: (inner ++ [s]) ++ inside) :=
          .append (.parenthesized hopening hinner hs) hinside
        exact ⟨t :: (inner ++ [s]) ++ inside, q, rest, by simp, hlist, hq, h⟩
      · rw [TokenKind.depthAfter_of_ne hopening hclosing] at h
        obtain ⟨inside, q, rest, rfl, hinside, hq, h⟩ := ih ts.length (by omega) h rfl
        exact ⟨t :: inside, q, rest, rfl, .append (.single hopening hclosing) hinside, hq, h⟩

/-- Tokens close a list if they are balanced up to the last, which is a closing parenthesis. -/
theorem closes_one_iff {ts : List Token} :
  closes 1 ts ↔ ∃ inside q, ts = inside ++ [q] ∧ Token.AreBalanced inside ∧ q.kind = .closing
  := by
  constructor
  · intro h
    obtain ⟨inside, q, rest, rfl, hinside, hq, hrest⟩ := exists_balanced_of_closes h
    obtain rfl : rest = [] := by simpa [closes] using hrest
    exact ⟨inside, q, rfl, hinside, hq⟩
  · rintro ⟨inside, q, rfl, hinside, hq⟩
    rw [hinside.closes_append, closes, hq]
    rfl

/-- Tokens of a list that are cut off before the list is closed are passed over to their end. -/
theorem Reader.pastClosing_cut {n : Nat} {front back : List Token}
    (h : closes (n + 1) (front ++ back)) (hback : back ≠ []) (last : Position) :
  pastClosing n last front = ⟨[], Token.lastPosition last front⟩
  := by
  induction front generalizing n last with
  | nil => rfl
  | cons t front ih =>
    rw [List.cons_append, closes] at h
    rw [pastClosing_cons]
    cases hdepth : t.kind.depthAfter n with
    | zero =>
      rw [hdepth] at h
      have hempty : front ++ back = [] := by simpa [closes] using h
      exact absurd (List.append_eq_nil_iff.mp hempty).2 hback
    | succ m =>
      rw [hdepth] at h
      simp only
      rw [ih h, Token.lastPosition_cons]

/-! ### Sections -/

namespace Heading

/-- No token is the keyword of two headings. -/
theorem eq_of_isKeyword {t : Token} {g h : Heading} (hg : t.isKeyword g.keyword)
    (hh : t.isKeyword h.keyword) :
  g = h
  := by
  rw [Token.isKeyword, Bool.and_eq_true] at hg hh
  have hwords := sameWord_trans (sameWord_symm hg.2) hh.2
  rw [sameWord_iff, toLower_keyword, toLower_keyword] at hwords
  apply keyword_injective hwords

/-- Tokens are the keyword of a heading if they are of those that are allowed. -/
theorem find?_isKeyword_iff {allowed : List Heading} {t : Token} {h : Heading} :
  (allowed.find? fun g => t.isKeyword g.keyword) = some h ↔ h ∈ allowed ∧ t.isKeyword h.keyword
  := by
  constructor
  · intro hfind
    exact ⟨List.mem_of_find?_eq_some hfind, by simpa using List.find?_some hfind⟩
  · rintro ⟨hallowed, hkeyword⟩
    apply find?_of_unique hallowed hkeyword
    intro g hg
    apply eq_of_isKeyword hg hkeyword

end Heading

/-- The requirement that the token declares, if it is the keyword of one. -/
def Token.requirement? (t : Token) : Option Requirement :=
  Requirement.ofKeyword? t.text

namespace Outline

/-- A section as it is written: its parentheses, its keyword and what stands below. -/
structure Block where
  opening : Token
  keyword : Token
  heading : Heading
  inside : List Token
  closing : Token

namespace Block

/-- The tokens of the section. -/
def tokens (b : Block) : List Token :=
  b.opening :: b.keyword :: (b.inside ++ [b.closing])

/-- The requirements that tokens below the keyword declare. -/
def requirements (b : Block) : List Requirement :=
  b.inside.filterMap Token.requirement?

/-- The section is written with the keyword of its heading and with balanced contents.  Below the
heading of requirements there are keywords of requirements only. -/
structure IsWritten (b : Block) : Prop where
  opening : b.opening.kind = .opening
  keyword : b.keyword.isKeyword b.heading.keyword
  inside : Token.AreBalanced b.inside
  closing : b.closing.kind = .closing
  requirements : b.heading = .requirements →
    ∀ t ∈ b.inside, t.kind = .keyword ∧ t.requirement?.isSome

theorem IsWritten.closes {b : Block} (h : b.IsWritten) :
  PlanLang.closes 1 (b.inside ++ [b.closing])
  := closes_one_iff.mpr ⟨b.inside, b.closing, rfl, h.inside, h.closing⟩

/-- The requirements that are available behind the section. -/
def available (b : Block) (s : Requirements) : Requirements :=
  match b.heading with
  | .requirements => b.requirements.foldl .declare .empty
  | .contents _ => s

/-- If the section declares types, then types are among what is available. -/
def IsTyped (b : Block) (s : Requirements) : Prop :=
  b.heading = .contents .types → s.has .typing

end Block

/-- The outline with a section more, behind which `rest` follows. -/
def addBlock (o : Outline) (b : Block) (rest : List Token) : Outline :=
  match b.heading with
  | .requirements => { o with requirements := some (b.requirements.foldl .declare .empty) }
  | .contents k => { o with sections := o.sections ++ [(k, b.inside ++ b.closing :: rest)] }

theorem available_addBlock (o : Outline) (b : Block) (rest : List Token) :
  (o.addBlock b rest).available = b.available o.available
  := by
  rw [addBlock, Block.available]
  cases b.heading <;> rfl

/-! ### Reading a section -/

open Reader

/-- The tokens of one more requirement. -/
def RequirementTokens (s s' : Requirements) (ts : List Token) : Prop :=
  ∃ t r, (t.kind = .keyword ∧ t.requirement? = some r) ∧ ts = [t] ∧ s' = s.declare r

theorem recognizes_requirement (s : Requirements) :
  (requirement s).Recognizes (RequirementTokens s)
  := by
  apply ((recognizes_expectKind .keyword).bind
    (H := fun t s' ts => ∃ r, t.requirement? = some r ∧ s' = s.declare r ∧ ts = []) _).imp
  rotate_left
  · intro t
    rw [Token.requirement?]
    cases Requirement.ofKeyword? t.text with
    | some r =>
      apply (recognizes_pure (s.declare r)).imp
      simp
    | none =>
      apply (recognizes_stop _).imp
      simp
  intro s' ts
  constructor
  · rintro ⟨t, _, _, rfl, ⟨hkind, rfl⟩, r, hr, rfl, rfl⟩
    exact ⟨t, r, ⟨hkind, hr⟩, rfl, rfl⟩
  · rintro ⟨t, r, ⟨hkind, hr⟩, rfl, rfl⟩
    exact ⟨t, [t], [], rfl, ⟨hkind, rfl⟩, r, hr, rfl, rfl⟩

theorem areSteps_requirement :
  AreSteps requirement RequirementTokens
  where
  recognizes := recognizes_requirement
  head := by
    rintro s s' _ ⟨t, r, ⟨hkind, -⟩, rfl, -⟩
    refine ⟨t, [], rfl, ?_⟩
    rw [hkind]
    exact nofun
  empty s last := by
    apply RunsOut.bind
    exact ⟨_, rfl⟩

/-- Requirements are declared by their keywords, one after the other. -/
theorem repeats_requirement_iff {s s' : Requirements} {ts : List Token} :
  Repeats RequirementTokens s s' ts ↔ ∃ inside q, ts = inside ++ [q] ∧ q.kind = .closing ∧
    (∀ t ∈ inside, t.kind = .keyword ∧ t.requirement?.isSome) ∧
    s' = (inside.filterMap Token.requirement?).foldl .declare s
  := by
  constructor
  · intro h
    induction h with
    | @close s t ht => exact ⟨[], t, rfl, ht, nofun, rfl⟩
    | step hstep _ ih =>
      obtain ⟨t, r, ⟨hkind, hr⟩, rfl, rfl⟩ := hstep
      obtain ⟨inside, q, rfl, hq, hinside, rfl⟩ := ih
      refine ⟨t :: inside, q, rfl, hq, ?_, ?_⟩
      · rw [List.forall_mem_cons, hr]
        exact ⟨⟨hkind, rfl⟩, hinside⟩
      · rw [List.filterMap_cons_some hr]
        rfl
  · rintro ⟨inside, q, rfl, hq, hinside, rfl⟩
    induction inside generalizing s with
    | nil => exact .close hq
    | cons t inside ih =>
      rw [List.forall_mem_cons] at hinside
      obtain ⟨r, hr⟩ := Option.isSome_iff_exists.mp hinside.1.2
      have hstep : RequirementTokens s (s.declare r) [t] := ⟨t, r, ⟨hinside.1.1, hr⟩, rfl, rfl⟩
      rw [List.filterMap_cons_some hr]
      have hrepeats : Repeats RequirementTokens s _ ([t] ++ (inside ++ [q])) :=
        .step hstep (ih hinside.2)
      exact hrepeats

theorem recognizes_heading (unsupported : List String) (allowed : List Heading) :
  (heading unsupported allowed).Recognizes fun h ts =>
    ∃ s t, s.kind = .opening ∧ t.isKeyword h.keyword ∧ h ∈ allowed ∧ ts = [s, t]
  := by
  apply ((recognizes_expectAfter (·.kind = .opening) ["(", ")"]).bind fun _ =>
    (recognizes_expect (·.kind = .keyword) (allowed.map Heading.keyword)).bind
      (H := fun t h ts => (h ∈ allowed ∧ t.isKeyword h.keyword) ∧ ts = []) _).imp
  rotate_left
  · intro t
    cases hfind : allowed.find? fun h => t.isKeyword h.keyword with
    | some g =>
      apply (recognizes_pure g).imp
      intro h ts
      rw [← Heading.find?_isKeyword_iff, hfind, Option.some.injEq, eq_comm]
    | none =>
      have hnot : ∀ (h : Heading) (ts : List Token),
          False ↔ (h ∈ allowed ∧ t.isKeyword h.keyword) ∧ ts = [] := by
        intro h ts
        rw [← Heading.find?_isKeyword_iff, hfind]
        simp
      simp only
      cases unsupported.find? t.isKeyword with
      | some word => exact (recognizes_stop _).imp hnot
      | none => exact (recognizes_stop _).imp hnot
  intro h ts
  constructor
  · rintro ⟨s, _, _, rfl, ⟨hs, rfl⟩, t, _, _, rfl, ⟨-, rfl⟩, ⟨hallowed, ht⟩, rfl⟩
    exact ⟨s, t, of_decide_eq_true hs, ht, hallowed, rfl⟩
  · rintro ⟨s, t, hs, ht, hallowed, rfl⟩
    have hkind : t.kind = .keyword := Token.kind_of_isKeyword ht
    exact ⟨s, [s], [t], rfl, ⟨decide_eq_true hs, rfl⟩, t, [t], [], rfl, ⟨decide_eq_true hkind, rfl⟩,
      ⟨hallowed, ht⟩, rfl⟩

theorem runsOut_nextSection (unsupported : List String) (s : List Heading × Outline)
    (last : Position) :
  (nextSection unsupported s).RunsOut ⟨[], last⟩
  := by
  apply RunsOut.bind
  apply RunsOut.bind
  exact ⟨_, rfl⟩

theorem checkTyping_ok_iff {o : Outline} {k : SectionKind} {c c' : Cursor} {u : Unit} :
  (checkTyping o k c).2 = .ok (u, c') ↔ (k = .types → o.available.has .typing) ∧ c' = c
  := by
  have hok : (.ok ((), c) : Except SyntaxError (Unit × Cursor)) = .ok (u, c') ↔ c' = c := by
    rw [Except.ok.injEq, Prod.mk.injEq, eq_comm (a := c)]
    simp only [true_and]
  rw [checkTyping]
  by_cases htyping : k = .types → o.available.has .typing
  · have hpass : (decide (k = .types) && !o.available.has .typing) = false := by
      simpa using htyping
    rw [hpass]
    simp only [Bool.false_eq_true, if_false, hok]
    exact (and_iff_right htyping).symm
  · have hstop : (decide (k = .types) && !o.available.has .typing) = true := by
      simpa using htyping
    rw [hstop]
    simp [htyping]

variable {allowed : List Heading} {o : Outline} {b : Block}

/-- What stands below the heading of a section is read with the parenthesis that closes it. -/
theorem enter_of_isWritten (hb : b.IsWritten) (htyped : b.IsTyped o.available)
    (rest : List Token) (last : Position) :
  (o.enter b.heading ⟨b.inside ++ b.closing :: rest, last⟩).2
    = .ok (o.addBlock b rest, ⟨rest, b.closing.position⟩)
  := by
  rw [addBlock]
  cases hheading : b.heading with
  | requirements =>
    have hrepeats : Repeats RequirementTokens .empty (b.requirements.foldl .declare .empty)
        (b.inside ++ [b.closing]) :=
      repeats_requirement_iff.mpr
        ⟨b.inside, b.closing, rfl, hb.closing, hb.requirements hheading, rfl⟩
    have hread := (areSteps_requirement.recognizes_untilClosing .empty).append hrepeats rest last
    rw [List.append_assoc, Token.lastPosition_concat] at hread
    rw [enter, bind_eq_ok_iff]
    exact ⟨_, _, hread, rfl⟩
  | contents k =>
    obtain ⟨inside, q, heq, -, hpast⟩ := pastClosing_of_closes hb.closes
    obtain ⟨rfl, hq⟩ := List.append_inj' heq rfl
    obtain rfl := List.singleton_inj.mp hq
    have hskip := hpast last rest
    rw [List.append_assoc, List.singleton_append] at hskip
    have htyping : k = .types → o.available.has .typing := by
      rintro rfl
      exact htyped hheading
    rw [enter, bind_eq_ok_iff]
    refine ⟨(), _, checkTyping_ok_iff.mpr ⟨htyping, rfl⟩, ?_⟩
    rw [bind_eq_ok_iff]
    refine ⟨_, _, rfl, ?_⟩
    rw [hskip]
    rfl

/-- A section that is allowed is read, whatever follows it. -/
theorem nextSection_of_isWritten (unsupported : List String) (hb : b.IsWritten)
    (hallowed : b.heading ∈ allowed) (htyped : b.IsTyped o.available) (rest : List Token)
    (last : Position) :
  (nextSection unsupported (allowed, o) ⟨b.tokens ++ rest, last⟩).2
    = .ok ((b.heading.following allowed, o.addBlock b rest), ⟨rest, b.closing.position⟩)
  := by
  have hheading := (recognizes_heading unsupported allowed).append
    ⟨b.opening, b.keyword, hb.opening, hb.keyword, hallowed, rfl⟩
    (b.inside ++ b.closing :: rest) last
  have henter := enter_of_isWritten hb htyped rest b.keyword.position
  have htokens : b.tokens ++ rest
      = [b.opening, b.keyword] ++ (b.inside ++ b.closing :: rest) := by
    simp [Block.tokens]
  rw [nextSection, htokens, bind_eq_ok_iff]
  refine ⟨_, _, hheading, ?_⟩
  rw [bind_eq_ok_iff]
  exact ⟨_, _, henter, rfl⟩

/-- If tokens remain behind a section that is read, then it is written, and allowed where it
stands. -/
theorem exists_block_of_nextSection {unsupported : List String} {s : List Heading × Outline}
    {c c' : Cursor} (h : (nextSection unsupported (allowed, o) c).2 = .ok (s, c'))
    (hrest : c'.rest ≠ []) :
  ∃ b : Block, c.rest = b.tokens ++ c'.rest ∧ b.IsWritten ∧ b.heading ∈ allowed ∧
    b.IsTyped o.available ∧ s = (b.heading.following allowed, o.addBlock b c'.rest)
  := by
  obtain ⟨h', c₁, hheading, hbelow⟩ := exists_of_bind h
  obtain ⟨o', c₂, henter, hpure⟩ := exists_of_bind hbelow
  cases hpure
  obtain ⟨_, ⟨p, t, hp, ht, hallowed, rfl⟩, hpasses⟩ :=
    (recognizes_heading unsupported allowed).ok_iff.mp hheading
  cases h' with
  | requirements =>
    obtain ⟨s, c₃, hrequirements, hpure⟩ := exists_of_bind henter
    cases hpure
    obtain ⟨_, hrepeats, hpasses'⟩ :=
      (areSteps_requirement.recognizes_untilClosing .empty).ok_iff.mp hrequirements
    obtain ⟨inside, q, rfl, hq, hinside, rfl⟩ := repeats_requirement_iff.mp hrepeats
    have hplain : Token.AreBalanced inside := .of_keywords fun t ht => (hinside t ht).1
    refine ⟨⟨p, t, .requirements, inside, q⟩, ?_, ⟨hp, ht, hplain, hq, fun _ => hinside⟩, hallowed,
      nofun, rfl⟩
    rw [hpasses.rest, hpasses'.rest]
    rfl
  | contents k =>
    obtain ⟨_, c₃, htyping, hcontents⟩ := exists_of_bind henter
    obtain ⟨htyped, rfl⟩ := checkTyping_ok_iff.mp htyping
    obtain ⟨ts, c₄, hskip, hpure⟩ := exists_of_bind hcontents
    cases hskip
    cases hpure
    obtain ⟨own, hown, hcloses⟩ := closes_of_pastClosing hrest
    obtain ⟨inside, q, rfl, hinside, hq⟩ := closes_one_iff.mp hcloses
    generalize (pastClosing 0 c₃.last c₃.rest).rest = rest at hown ⊢
    refine ⟨⟨p, t, .contents k, inside, q⟩, ?_, ⟨hp, ht, hinside, hq, nofun⟩, hallowed, ?_, ?_⟩
    · rw [hpasses.rest, hown]
      rfl
    · intro hk
      exact htyped (Heading.contents.inj hk)
    · rw [addBlock, hown, List.append_assoc]
      rfl

/-- Where the contents of a section are cut off, no token remains behind it. -/
theorem enter_cut (hb : b.IsWritten) (htyped : b.IsTyped o.available) {front back : List Token}
    (heq : b.inside ++ [b.closing] = front ++ back) (hback : back ≠ []) (last : Position) :
  (o.enter b.heading).RunsOut ⟨front, last⟩ ∨
    ∃ o', (o.enter b.heading ⟨front, last⟩).2
      = .ok (o', ⟨[], Token.lastPosition last front⟩)
  := by
  cases hheading : b.heading with
  | requirements =>
    left
    have hrepeats : Repeats RequirementTokens .empty _ (b.inside ++ [b.closing]) :=
      repeats_requirement_iff.mpr
        ⟨b.inside, b.closing, rfl, hb.closing, hb.requirements hheading, rfl⟩
    rw [heq] at hrepeats
    apply RunsOut.bind
    apply (areSteps_requirement.recognizes_untilClosing .empty).cut hrepeats hback
  | contents k =>
    right
    have hskip := hb.closes
    rw [heq] at hskip
    have hpast := pastClosing_cut hskip hback last
    have htyping : k = .types → o.available.has .typing := by
      rintro rfl
      exact htyped hheading
    refine ⟨{ o with sections := o.sections ++ [(k, front)] }, ?_⟩
    rw [enter, bind_eq_ok_iff]
    refine ⟨(), _, checkTyping_ok_iff.mpr ⟨htyping, rfl⟩, ?_⟩
    rw [bind_eq_ok_iff]
    refine ⟨_, _, rfl, ?_⟩
    rw [hpast]
    rfl

/-- Where a section is cut off, no token remains behind it. -/
theorem nextSection_cut (unsupported : List String) (hb : b.IsWritten)
    (hallowed : b.heading ∈ allowed) (htyped : b.IsTyped o.available) {front back : List Token}
    (heq : b.tokens = front ++ back) (hback : back ≠ []) (last : Position) :
  (nextSection unsupported (allowed, o)).RunsOut ⟨front, last⟩ ∨
    ∃ s, (nextSection unsupported (allowed, o) ⟨front, last⟩).2
      = .ok (s, ⟨[], Token.lastPosition last front⟩)
  := by
  have hheading := recognizes_heading unsupported allowed
  have hwritten : ∃ s t : Token, s.kind = .opening ∧ t.isKeyword b.heading.keyword ∧
      b.heading ∈ allowed ∧ [b.opening, b.keyword] = [s, t] :=
    ⟨b.opening, b.keyword, hb.opening, hb.keyword, hallowed, rfl⟩
  have htokens : b.tokens = [b.opening, b.keyword] ++ (b.inside ++ [b.closing]) := rfl
  rw [htokens] at heq
  rcases exists_cut heq with ⟨ws, hws, hfront⟩ | ⟨inner, rfl, hinner⟩
  · left
    rw [hfront] at hwritten
    apply RunsOut.bind
    apply hheading.cut hwritten hws
  · -- the heading is there, and its contents are cut off
    have hfirst := hheading.append hwritten inner last
    rcases enter_cut hb htyped hinner hback (Token.lastPosition last [b.opening, b.keyword])
      with hcut | ⟨o', hcut⟩
    · left
      apply RunsOut.bind_of_ok hfirst
      apply RunsOut.bind hcut
    · right
      refine ⟨(b.heading.following allowed, o'), ?_⟩
      rw [Token.lastPosition_append, nextSection, bind_eq_ok_iff]
      refine ⟨_, _, hfirst, ?_⟩
      rw [bind_eq_ok_iff]
      exact ⟨o', _, hcut, rfl⟩

end Outline

end PlanLang
