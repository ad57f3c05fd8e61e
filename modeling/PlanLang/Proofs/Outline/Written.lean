import PlanLang.Proofs.Outline.Block

/-!
# Descriptions as they are written

A description is written as its title, its sections one after the other and a closing parenthesis.
Finding its outline goes from one section to the next, and reads all tokens.
-/

namespace PlanLang

open Reader

namespace Outline

variable {unsupported : List String}

/-! ### Sections one after the other -/

/-- Sections can be read one after the other, where the headings are allowed in front of the first
and the requirements are available there. -/
inductive Follow : List Heading → Requirements → List Block → Prop where
  | nil {allowed : List Heading} {s : Requirements} :
    Follow allowed s []
  | cons {allowed : List Heading} {s : Requirements} {b : Block} {bs : List Block}
    (hb : b.IsWritten) (hallowed : b.heading ∈ allowed) (htyped : b.IsTyped s)
    (hrest : Follow (b.heading.following allowed) (b.available s) bs) :
    Follow allowed s (b :: bs)

/-- The outline with sections more, one after the other, behind which `rest` follows. -/
def addBlocks (o : Outline) : List Block → List Token → Outline
  | [], _ => o
  | b :: bs, rest => (o.addBlock b (bs.flatMap Block.tokens ++ rest)).addBlocks bs rest

theorem length_le_flatMap_tokens (bs : List Block) :
  bs.length ≤ (bs.flatMap Block.tokens).length
  := by
  induction bs with
  | nil => exact le_rfl
  | cons b bs ih =>
    rw [List.flatMap_cons, List.length_append, List.length_cons, Block.tokens, List.length_cons]
    omega

/-- Sections are read up to the parenthesis behind them, whatever comes after it. -/
theorem sections_of_follow {bs : List Block} {s : List Heading × Outline}
    (h : Follow s.1 s.2.available bs) {n : Nat} (hn : bs.length < n) {q : Token}
    (hq : q.kind = .closing) (rest : List Token) (last : Position) :
  ∃ s', (untilClosingWithin (nextSection unsupported) n s
      ⟨bs.flatMap Block.tokens ++ q :: rest, last⟩).2 = .ok (s', ⟨rest, q.position⟩) ∧
    s'.2 = s.2.addBlocks bs (q :: rest)
  := by
  induction bs generalizing s n last with
  | nil =>
    obtain ⟨n, rfl⟩ := Nat.exists_eq_add_one_of_ne_zero (Nat.ne_zero_of_lt hn)
    exact ⟨s, untilClosingWithin_closing _ n s hq rest last, rfl⟩
  | cons b bs ih =>
    obtain ⟨n, rfl⟩ := Nat.exists_eq_add_one_of_ne_zero (Nat.ne_zero_of_lt hn)
    obtain ⟨allowed, o⟩ := s
    cases h with
    | cons hb hallowed htyped hfollow =>
      have hfirst := nextSection_of_isWritten unsupported hb hallowed htyped
        (bs.flatMap Block.tokens ++ q :: rest) last
      rw [← available_addBlock o b (bs.flatMap Block.tokens ++ q :: rest)] at hfollow
      obtain ⟨s', hrest, hs'⟩ := ih (s := (b.heading.following allowed, _)) hfollow
        (Nat.lt_of_succ_lt_succ hn) b.closing.position
      have hhead : ∀ t ∈ (b.tokens ++ (bs.flatMap Block.tokens ++ q :: rest)).head?,
          t.kind ≠ .closing := by
        intro t ht
        obtain rfl : b.opening = t := by simpa [Block.tokens] using ht
        rw [hb.opening]
        decide
      refine ⟨s', ?_, hs'⟩
      rw [List.flatMap_cons, List.append_assoc, untilClosingWithin_step _ n _ hhead, bind_eq_ok_iff]
      exact ⟨_, _, hfirst, hrest⟩

/-- If nothing comes after the parenthesis up to which sections are read, then they are written, one
after the other. -/
theorem exists_follow_of_sections {n : Nat} {s s' : List Heading × Outline} {c c' : Cursor}
    (hn : c.rest.length ≤ n) (hc' : c'.rest = [])
    (h : (untilClosingWithin (nextSection unsupported) n s c).2 = .ok (s', c')) :
  ∃ bs q, Follow s.1 s.2.available bs ∧ q.kind = .closing ∧
    c.rest = bs.flatMap Block.tokens ++ [q] ∧ s'.2 = s.2.addBlocks bs [q]
  := by
  induction n generalizing s c with
  | zero =>
    have hempty : c.rest = [] := List.eq_nil_of_length_eq_zero (Nat.le_zero.mp hn)
    obtain ⟨rest, last⟩ := c
    cases hempty
    obtain ⟨options, herror⟩ := runsOut_nextSection unsupported s last
    rw [untilClosingWithin, herror] at h
    contradiction
  | succ n ih =>
    rcases cases_of_untilClosingWithin h with ⟨rfl, t, hc, ht⟩ | ⟨s₁, c₁, hsection, hrest⟩
    · rw [hc'] at hc
      exact ⟨[], t, .nil, ht, hc, rfl⟩
    · obtain ⟨allowed, o⟩ := s
      have hc₁ : c₁.rest ≠ [] := by
        intro hempty
        obtain ⟨rest, last⟩ := c₁
        cases hempty
        obtain ⟨options, herror⟩ :=
          runsOut_untilClosingWithin (runsOut_nextSection unsupported) n s₁ last
        rw [herror] at hrest
        contradiction
      obtain ⟨b, hc, hb, hallowed, htyped, rfl⟩ := exists_block_of_nextSection hsection hc₁
      have hle : c₁.rest.length ≤ n := by
        rw [hc, Block.tokens, List.cons_append, List.length_cons, List.cons_append,
          List.length_cons, List.length_append] at hn
        omega
      obtain ⟨bs, q, hbs, hq, hrest, hs'⟩ := ih hle hrest
      rw [available_addBlock] at hbs
      refine ⟨b :: bs, q, .cons hb hallowed htyped hbs, hq, ?_, ?_⟩
      · rw [hc, hrest, List.flatMap_cons, List.append_assoc]
      · rw [hs', addBlocks, hrest]

/-- Where sections are cut off, or the parenthesis behind them, reading them runs out of tokens. -/
theorem sections_cut {bs : List Block} {s : List Heading × Outline}
    (h : Follow s.1 s.2.available bs) {n : Nat} {q : Token} {front back : List Token}
    (heq : bs.flatMap Block.tokens ++ [q] = front ++ back) (hback : back ≠ [])
    (hn : front.length ≤ n) (last : Position) :
  (untilClosingWithin (nextSection unsupported) n s).RunsOut ⟨front, last⟩
  := by
  induction bs generalizing s n front last with
  | nil =>
    cases front with
    | nil => apply runsOut_untilClosingWithin (runsOut_nextSection unsupported)
    | cons t front =>
      have htail := (List.cons.inj heq).2
      exact absurd (List.append_eq_nil_iff.mp htail.symm).2 hback
  | cons b bs ih =>
    cases n with
    | zero =>
      obtain rfl : front = [] := List.eq_nil_of_length_eq_zero (Nat.le_zero.mp hn)
      apply runsOut_nextSection
    | succ n =>
      obtain ⟨allowed, o⟩ := s
      rw [List.flatMap_cons, List.append_assoc] at heq
      cases h with
      | cons hb hallowed htyped hfollow =>
        have hhead : ∀ t ∈ front.head?, t.kind ≠ .closing := by
          intro t ht
          obtain ⟨front', rfl⟩ := List.head?_eq_some_iff.mp ht
          obtain rfl : b.opening = t := (List.cons.inj heq).1
          rw [hb.opening]
          decide
        refine RunsOut.untilClosingWithin_succ ?_ hhead
        rcases exists_cut heq with ⟨ws, hws, htokens⟩ | ⟨ws, rfl, hrest⟩
        · rcases nextSection_cut unsupported hb hallowed htyped htokens hws last
            with hcut | ⟨s, hcut⟩
          · apply RunsOut.bind hcut
          · apply RunsOut.bind_of_ok_nil hcut
            apply runsOut_untilClosingWithin (runsOut_nextSection unsupported)
        · have hfirst := nextSection_of_isWritten unsupported hb hallowed htyped ws last
          have hposition : b.closing.position = Token.lastPosition last b.tokens :=
            (Token.lastPosition_concat last (b.opening :: b.keyword :: b.inside) b.closing).symm
          rw [hposition] at hfirst
          apply RunsOut.bind_of_ok hfirst
          rw [← available_addBlock o b ws] at hfollow
          apply ih (s := (b.heading.following allowed, _)) hfollow hrest
          rw [List.length_append, Block.tokens, List.length_cons] at hn
          omega

/-- The sections of a description and the parenthesis that closes it. -/
def BodyTokens (l : Layout) (o : Outline) (ts : List Token) : Prop :=
  ∃ bs q, Follow l.headings .empty bs ∧ q.kind = .closing ∧ ts = bs.flatMap Block.tokens ++ [q] ∧
    o = empty.addBlocks bs [q]

theorem exhausts_noMore :
  noMore.Exhausts fun _ ts => ts = []
  := by
  constructor
  · rintro ⟨rest, last⟩ _ c'
    cases rest with
    | nil => simp [noMore, Token.lastPosition, eq_comm]
    | cons t rest => simp [noMore]
  · rintro _ front back hnil hback
    exact absurd (List.append_eq_nil_iff.mp hnil).2 hback
  · rintro _ _ rfl t rest last
    rfl

/-- The sections of a description are read, and nothing may follow. -/
theorem exhausts_body (l : Layout) :
  (body l).Exhausts (BodyTokens l)
  := by
  -- the parenthesis behind the sections is found, whatever follows
  have huntil : ∀ {bs q}, Follow l.headings .empty bs → q.kind = .closing → ∀ rest last,
      ∃ s, (untilClosing (nextSection l.unsupported) (l.headings, .empty)
        ⟨bs.flatMap Block.tokens ++ q :: rest, last⟩).2 = .ok (s, ⟨rest, q.position⟩) ∧
        s.2 = empty.addBlocks bs (q :: rest) := by
    intro bs q hbs hq rest last
    apply sections_of_follow (s := (l.headings, .empty)) hbs _ hq
    have hlength := length_le_flatMap_tokens bs
    simp only [List.length_append, List.length_cons]
    omega
  have hmore : ∀ o, (noMore >>= fun _ => pure o : Reader Outline).Exhausts _ :=
    fun o => exhausts_noMore.map fun _ => o
  have hread : ∀ {o ts}, BodyTokens l o ts → ∀ last,
      (body l ⟨ts, last⟩).2 = .ok (o, ⟨[], Token.lastPosition last ts⟩) := by
    rintro o _ ⟨bs, q, hbs, hq, rfl, rfl⟩ last
    obtain ⟨s, hs, ho⟩ := huntil hbs hq [] last
    rw [body, bind_eq_ok_iff]
    refine ⟨s, _, hs, (hmore s.2).ok_iff.mpr ⟨⟨(), rfl, ho.symm⟩, ?_⟩⟩
    rw [Token.lastPosition_concat]
    rfl
  constructor
  · intro c o c'
    constructor
    · intro h
      obtain ⟨s, c₁, hsections, hrest⟩ := exists_of_bind h
      obtain ⟨⟨_, hempty, rfl⟩, -⟩ := (hmore s.2).ok_iff.mp hrest
      obtain ⟨bs, q, hbs, hq, hc, ho⟩ := exists_follow_of_sections le_rfl hempty hsections
      have hbody : BodyTokens l s.2 c.rest := ⟨bs, q, hbs, hq, hc, ho⟩
      have hok := hread hbody c.last
      rw [h] at hok
      cases hok
      exact ⟨hbody, rfl⟩
    · rintro ⟨hbody, rfl⟩
      apply hread hbody
  · rintro o front back ⟨bs, q, hbs, hq, heq, -⟩ hback last
    apply RunsOut.bind
    apply sections_cut (s := (l.headings, .empty)) hbs heq.symm hback le_rfl
  · rintro o _ ⟨bs, q, hbs, hq, rfl, rfl⟩ t rest last
    obtain ⟨s, hs, -⟩ := huntil hbs hq (t :: rest) last
    rw [List.append_assoc, List.singleton_append, body, (bind_of_ok _ hs).2]
    exact (hmore s.2).extra ⟨(), rfl, rfl⟩ t rest q.position

/-! ### Titles -/

/-- The tokens of a title. -/
def IsTitle (word : String) (name : Token) (ts : List Token) : Prop :=
  ∃ a b c d e : Token, ts = [a, b, c, d, name, e] ∧ a.kind = .opening ∧ b.isName "define" ∧
    c.kind = .opening ∧ d.isName word ∧ name.kind = .name ∧ e.kind = .closing

theorem IsTitle.length_eq {word : String} {name : Token} {ts : List Token}
    (h : IsTitle word name ts) :
  ts.length = 6
  := by
  obtain ⟨_, _, _, _, _, rfl, -⟩ := h
  rfl

theorem recognizes_title (word : String) :
  (title word).Recognizes (IsTitle word)
  := by
  apply (recognizes_opening.bind fun _ => (recognizes_expect _ _).bind fun _ =>
    recognizes_opening.bind fun _ => (recognizes_expect _ _).bind fun _ =>
      (recognizes_expectKind .name).bind fun name =>
        recognizes_closing.map fun _ => name).imp
  intro name ts
  constructor
  · rintro ⟨_, _, _, rfl, ⟨a, ha, rfl⟩, b, _, _, rfl, ⟨hb, rfl⟩, _, _, _, rfl, ⟨c, hc, rfl⟩,
      d, _, _, rfl, ⟨hd, rfl⟩, n, _, _, rfl, ⟨hn, rfl⟩, _, ⟨e, he, rfl⟩, rfl⟩
    exact ⟨a, b, c, d, e, rfl, ha, hb, hc, hd, hn, he⟩
  · rintro ⟨a, b, c, d, e, rfl, ha, hb, hc, hd, hn, he⟩
    exact ⟨(), [a], _, rfl, ⟨a, ha, rfl⟩, b, [b], _, rfl, ⟨hb, rfl⟩, (), [c], _, rfl, ⟨c, hc, rfl⟩,
      d, [d], _, rfl, ⟨hd, rfl⟩, name, [name], _, rfl, ⟨hn, rfl⟩, (), ⟨e, he, rfl⟩, rfl⟩

end Outline

/-! ### Outlines of descriptions -/

theorem Domain.exhausts_outline :
  outline.Exhausts fun x ts => ∃ head body, ts = head ++ body ∧
    Outline.IsTitle "domain" x.1 head ∧ Outline.BodyTokens layout x.2 body
  := by
  apply (Exhausts.bind (Outline.recognizes_title "domain") fun name =>
    (Outline.exhausts_body layout).map fun o => (name, o)).imp
  rintro ⟨name, o⟩ ts
  constructor
  · rintro ⟨_, head, body, rfl, htitle, _, hbody, heq⟩
    cases heq
    exact ⟨head, body, rfl, htitle, hbody⟩
  · rintro ⟨head, body, rfl, htitle, hbody⟩
    exact ⟨name, head, body, rfl, htitle, o, hbody, rfl⟩

/-- The tokens that name the domain of a problem. -/
def Problem.IsDomainClause (domain : Token) (ts : List Token) : Prop :=
  ∃ a b c : Token, ts = [a, b, domain, c] ∧ a.kind = .opening ∧ b.isKeyword ":domain" ∧
    domain.kind = .name ∧ c.kind = .closing

theorem Problem.IsDomainClause.length_eq {domain : Token} {ts : List Token}
    (h : IsDomainClause domain ts) :
  ts.length = 4
  := by
  obtain ⟨_, _, _, rfl, -⟩ := h
  rfl

theorem Problem.exhausts_outline :
  outline.Exhausts fun x ts => ∃ head clause body, ts = head ++ clause ++ body ∧
    Outline.IsTitle "problem" x.1 head ∧ IsDomainClause x.2.1 clause ∧
    Outline.BodyTokens layout x.2.2 body
  := by
  apply (Exhausts.bind (Outline.recognizes_title "problem") fun name =>
    Exhausts.bind recognizes_opening fun _ => Exhausts.bind (recognizes_expectAfter _ _) fun _ =>
      Exhausts.bind (recognizes_expectKind .name) fun domain =>
        Exhausts.bind recognizes_closing fun _ =>
          (Outline.exhausts_body layout).map fun o => (name, domain, o)).imp
  rintro ⟨name, domain, o⟩ ts
  constructor
  · rintro ⟨_, head, _, rfl, htitle, _, _, _, rfl, ⟨a, ha, rfl⟩, b, _, _, rfl, ⟨hb, rfl⟩,
      _, _, _, rfl, ⟨hd, rfl⟩, _, _, body, rfl, ⟨c, hc, rfl⟩, _, hbody, heq⟩
    cases heq
    exact ⟨head, [a, b, domain, c], body, by simp, htitle, ⟨a, b, c, rfl, ha, hb, hd, hc⟩, hbody⟩
  · rintro ⟨head, _, body, rfl, htitle, ⟨a, b, c, rfl, ha, hb, hd, hc⟩, hbody⟩
    exact ⟨name, head, _, List.append_assoc _ _ _, htitle, (), [a], _, rfl, ⟨a, ha, rfl⟩,
      b, [b], _, rfl, ⟨hb, rfl⟩, domain, [domain], _, rfl, ⟨hd, rfl⟩, (), [c], body, rfl,
      ⟨c, hc, rfl⟩, o, hbody, rfl⟩

end PlanLang
