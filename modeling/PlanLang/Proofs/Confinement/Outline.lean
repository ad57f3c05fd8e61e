import PlanLang.Domain
import PlanLang.Problem
import PlanLang.Proofs.Confinement.Section

/-!
# Sections of descriptions

Finding the outline of a description passes over the contents of each section by counting
parentheses.  Reading the section afterwards ends at the parenthesis that has been found so, and is
confined to the tokens up to it.  So the tokens of a description are parted among its sections, and
each section gives its error whatever the others contain.
-/

namespace PlanLang

namespace Reader

/-! ### Passing over contents -/

theorem pastClosing_cons (n : Nat) (last : Position) (t : Token) (ts : List Token) :
  pastClosing n last (t :: ts) =
    match t.kind.depthAfter n with
    | 0 => ⟨ts, t.position⟩
    | m + 1 => pastClosing m t.position ts
  := by
  cases hkind : t.kind <;> cases n <;> simp [pastClosing, TokenKind.depthAfter, hkind]

/-- Only the parenthesis that closes the last open one leaves none open. -/
theorem kind_of_depthAfter {kind : TokenKind} {n : Nat} (h : kind.depthAfter n = 0) :
  kind = .closing
  := by
  cases kind <;> first | rfl | contradiction

/-- Tokens that close what is open are passed over up to the last of them. -/
theorem pastClosing_of_closes {n : Nat} {own : List Token} (h : closes (n + 1) own) :
  ∃ inside q, own = inside ++ [q] ∧ q.kind = .closing ∧
    ∀ last rest, pastClosing n last (own ++ rest) = ⟨rest, q.position⟩
  := by
  induction own generalizing n with
  | nil => contradiction
  | cons t own ih =>
    rw [closes] at h
    cases hdepth : t.kind.depthAfter n with
    | zero =>
      rw [hdepth] at h
      obtain rfl : own = [] := by simpa [closes] using h
      refine ⟨[], t, rfl, kind_of_depthAfter hdepth, ?_⟩
      intro last rest
      rw [List.cons_append, pastClosing_cons, hdepth]
      rfl
    | succ m =>
      rw [hdepth] at h
      obtain ⟨inside, q, rfl, hq, hpast⟩ := ih h
      refine ⟨t :: inside, q, rfl, hq, ?_⟩
      intro last rest
      rw [List.cons_append, pastClosing_cons, hdepth]
      apply hpast

/-- If tokens remain behind a closing parenthesis, then what has been passed over closes what was
open. -/
theorem closes_of_pastClosing {n : Nat} {last : Position} {ts : List Token}
    (h : (pastClosing n last ts).rest ≠ []) :
  ∃ own, ts = own ++ (pastClosing n last ts).rest ∧ closes (n + 1) own
  := by
  induction ts generalizing n last with
  | nil => contradiction
  | cons t ts ih =>
    rw [pastClosing_cons] at h ⊢
    cases hdepth : t.kind.depthAfter n with
    | zero =>
      refine ⟨[t], rfl, ?_⟩
      rw [closes, hdepth]
      rfl
    | succ m =>
      rw [hdepth] at h
      obtain ⟨own, hown, hcloses⟩ := ih h
      refine ⟨t :: own, congrArg (t :: ·) hown, ?_⟩
      rwa [closes, hdepth]

theorem length_pastClosing_le (n : Nat) (last : Position) (ts : List Token) :
  (pastClosing n last ts).rest.length ≤ ts.length
  := by
  induction ts generalizing n last with
  | nil => exact le_rfl
  | cons t ts ih =>
    rw [pastClosing_cons, List.length_cons]
    cases t.kind.depthAfter n with
    | zero => exact Nat.le_succ _
    | succ m => exact (ih m _).trans (Nat.le_succ _)

/-! ### Reading single tokens -/

/-- What is read as expected is the next token. -/
theorem rest_of_expect {p : Token → Bool} {options : List String} {c c' : Cursor} {t : Token}
    (h : (expect p options c).2 = .ok (t, c')) :
  c.rest = t :: c'.rest ∧ p t
  := by
  obtain ⟨rest, last⟩ := c
  cases rest with
  | nil => contradiction
  | cons s ts =>
    by_cases hs : p s
    · obtain ⟨rfl, rfl⟩ : s = t ∧ ⟨ts, s.position⟩ = c' := by simpa [expect, hs] using h
      exact ⟨rfl, hs⟩
    · simp [expect, hs] at h

theorem rest_of_expectAfter {p : Token → Bool} {options : List String} {c c' : Cursor} {t : Token}
    (h : (expectAfter p options c).2 = .ok (t, c')) :
  c.rest = t :: c'.rest ∧ p t
  := by
  obtain ⟨rest, last⟩ := c
  cases rest with
  | nil => contradiction
  | cons s ts =>
    by_cases hs : p s
    · obtain ⟨rfl, rfl⟩ : s = t ∧ ⟨ts, s.position⟩ = c' := by simpa [expectAfter, hs] using h
      exact ⟨rfl, hs⟩
    · simp [expectAfter, hs] at h

theorem rest_of_opening {c c' : Cursor} {u : Unit} (h : (opening c).2 = .ok (u, c')) :
  ∃ t, c.rest = t :: c'.rest
  := by
  obtain ⟨t, hexpect, -⟩ := exists_of_bind_pure h
  exact ⟨t, (rest_of_expect hexpect).1⟩

theorem rest_of_closing {c c' : Cursor} {u : Unit} (h : (closing c).2 = .ok (u, c')) :
  ∃ t, c.rest = t :: c'.rest
  := by
  obtain ⟨t, hexpect, -⟩ := exists_of_bind_pure h
  exact ⟨t, (rest_of_expect hexpect).1⟩

/-- A token that is found is the next one, and where none is found nothing is read. -/
theorem rest_of_found {p : Token → Bool} {c c' : Cursor} {b : Bool}
    (h : (found p c).2 = .ok (b, c')) :
  if b then ∃ t, c.rest = t :: c'.rest ∧ p t else c' = c
  := by
  cases b with
  | false => exact cursor_of_found h
  | true =>
    obtain ⟨rest, last⟩ := c
    cases rest with
    | nil => simp [found, accept, bind_apply, pure_apply] at h
    | cons t ts =>
      by_cases ht : p t
      · obtain rfl : ⟨ts, t.position⟩ = c' := by
          simpa [found, accept, bind_apply, pure_apply, ht] using h
        exact ⟨t, rfl, ht⟩
      · simp [found, accept, bind_apply, pure_apply, ht] at h

/-- A repetition has come to its end with a closing parenthesis, or it goes on after a step. -/
theorem cases_of_untilClosingWithin {σ : Type} {step : σ → Reader σ} {n : Nat} {s s' : σ}
    {c c' : Cursor} (h : (untilClosingWithin step (n + 1) s c).2 = .ok (s', c')) :
  (s' = s ∧ ∃ t, c.rest = t :: c'.rest ∧ t.kind = .closing) ∨
    ∃ s₁ c₁, (step s c).2 = .ok (s₁, c₁) ∧
      (untilClosingWithin step n s₁ c₁).2 = .ok (s', c')
  := by
  obtain ⟨b, c'', hfound, hrest⟩ := exists_of_bind h
  have hnext := rest_of_found hfound
  cases b with
  | true =>
    obtain ⟨t, hc, ht⟩ := hnext
    cases hrest
    exact .inl ⟨rfl, t, hc, of_decide_eq_true ht⟩
  | false =>
    obtain rfl : c'' = c := hnext
    exact .inr (exists_of_bind hrest)

end Reader

namespace Outline

open Reader

/-! ### Sections one after the other -/

/-- The section that is listed for a heading, with its tokens. -/
def located (h : Heading) (ts : List Token) : List (SectionKind × List Token) :=
  match h with
  | .requirements => []
  | .contents k => [(k, ts)]

/-- The tokens of a description after its title, and the sections that are listed.  Each section
begins with an opening parenthesis and a keyword, and its own tokens, up to the parenthesis that
closes it, follow.  The last token closes the description. -/
inductive Spans : List Token → List (SectionKind × List Token) → Prop where
  | close {t : Token} (ht : t.kind = .closing) :
      Spans [t] []
  | block {s t : Token} {h : Heading} {own rest : List Token} {ss : List (SectionKind × List Token)}
      (hs : s.kind = .opening) (ht : t.isKeyword h.keyword) (hown : closes 1 own)
      (hrest : Spans rest ss) :
      Spans (s :: t :: (own ++ rest)) (located h (own ++ rest) ++ ss)

/-- A section that is listed begins with tokens of the description that close it. -/
theorem Spans.exists_own {tokens : List Token} {ss : List (SectionKind × List Token)}
    (h : Spans tokens ss) :
  ∀ k ts, (k, ts) ∈ ss → ∃ own rest, ts = own ++ rest ∧ own ⊆ tokens ∧ closes 1 own
  := by
  induction h with
  | close => exact nofun
  | @block s t h own rest ss _ _ hown _ ih =>
    intro k ts hmem
    rcases List.mem_append.mp hmem with hmem | hmem
    · cases h with
      | requirements => contradiction
      | contents k' =>
        obtain ⟨rfl, rfl⟩ : k = k' ∧ ts = own ++ rest := by simpa [located] using hmem
        refine ⟨own, rest, rfl, ?_, hown⟩
        intro u hu
        simp [hu]
    · obtain ⟨own', rest', hts, hsubset, hown'⟩ := ih k ts hmem
      refine ⟨own', rest', hts, ?_, hown'⟩
      intro u hu
      simp [hsubset hu]

theorem Spans.ne_nil {tokens : List Token} {ss : List (SectionKind × List Token)}
    (h : Spans tokens ss) :
  tokens ≠ []
  := by
  cases h <;> exact List.cons_ne_nil _ _

/-! ### Reading the outline -/

/-- The keywords of requirements are read up to the parenthesis that closes them. -/
theorem closes_of_requirements (n : Nat) {s s' : Requirements} {c c' : Cursor}
    (hn : c.rest.length ≤ n)
    (h : (untilClosingWithin requirement n s c).2 = .ok (s', c')) :
  ∃ own, c.rest = own ++ c'.rest ∧ closes 1 own
  := by
  have hstep : ∀ {s s' c c'}, (requirement s c).2 = .ok (s', c') →
      ∃ t, c.rest = t :: c'.rest ∧ t.kind = .keyword := by
    intro s s' c c' h
    obtain ⟨t, c'', hexpect, hrest⟩ := exists_of_bind h
    obtain ⟨hc, hkind⟩ := rest_of_expect hexpect
    cases hkeyword : Requirement.ofKeyword? t.text with
    | some r =>
      rw [hkeyword] at hrest
      cases hrest
      exact ⟨t, hc, of_decide_eq_true hkind⟩
    | none =>
      rw [hkeyword] at hrest
      contradiction
  induction n generalizing s c with
  | zero =>
    obtain ⟨t, hc, -⟩ := hstep h
    rw [hc] at hn
    contradiction
  | succ n ih =>
    rcases cases_of_untilClosingWithin h with ⟨-, t, hc, ht⟩ | ⟨s'', c'', hrequirement, hrest⟩
    · refine ⟨[t], hc, ?_⟩
      rw [closes, ht]
      rfl
    · obtain ⟨t, hc, hkind⟩ := hstep hrequirement
      have hlength : c''.rest.length ≤ n := by
        rw [hc] at hn
        exact Nat.le_of_succ_le_succ hn
      obtain ⟨own, hown, hcloses⟩ := ih hlength hrest
      refine ⟨t :: own, by rw [hc, hown]; rfl, ?_⟩
      rw [closes, hkind]
      exact hcloses

/-- A heading is an opening parenthesis and its keyword. -/
theorem rest_of_heading {unsupported : List String} {allowed : List Heading} {h : Heading}
    {c c' : Cursor} (hok : (heading unsupported allowed c).2 = .ok (h, c')) :
  ∃ s t, c.rest = s :: t :: c'.rest ∧ s.kind = .opening ∧ t.isKeyword h.keyword ∧ h ∈ allowed
  := by
  obtain ⟨s, c'', hopening, hrest⟩ := exists_of_bind hok
  obtain ⟨t, c''', hexpect, hrest⟩ := exists_of_bind hrest
  obtain ⟨hc, hs⟩ := rest_of_expectAfter hopening
  obtain ⟨hc'', -⟩ := rest_of_expect hexpect
  cases hfind : allowed.find? fun h => t.isKeyword h.keyword with
  | some h' =>
    rw [hfind] at hrest
    cases hrest
    have hkeyword : t.isKeyword h.keyword := by simpa using List.find?_some hfind
    exact ⟨s, t, by rw [hc, hc''], of_decide_eq_true hs, hkeyword,
      List.mem_of_find?_eq_some hfind⟩
  | none =>
    rw [hfind] at hrest
    cases hunsupported : unsupported.find? t.isKeyword with
    | some word => simp [hunsupported, stop] at hrest
    | none => simp [hunsupported, stop] at hrest

/-- What stands below a heading is passed over.  If tokens remain, they come behind the parenthesis
that closes the section. -/
theorem rest_of_enter {o o' : Outline} {h : Heading} {c c' : Cursor}
    (hok : (o.enter h c).2 = .ok (o', c')) :
  c'.rest.length ≤ c.rest.length ∧ o'.sections = o.sections ++ located h c.rest ∧
    (c'.rest ≠ [] → ∃ own, c.rest = own ++ c'.rest ∧ closes 1 own)
  := by
  cases h with
  | requirements =>
    obtain ⟨s, c'', hrequirements, hrest⟩ := exists_of_bind hok
    cases hrest
    obtain ⟨own, hown, hcloses⟩ := closes_of_requirements _ le_rfl hrequirements
    refine ⟨?_, by simp [located], fun _ => ⟨own, hown, hcloses⟩⟩
    rw [hown, List.length_append]
    apply Nat.le_add_left
  | contents k =>
    obtain ⟨_, c'', htyping, hrest⟩ := exists_of_bind hok
    have hc : c'' = c := by
      unfold checkTyping at htyping
      split at htyping
      · contradiction
      · cases htyping
        rfl
    subst hc
    obtain ⟨tokens, c''', hskip, hrest⟩ := exists_of_bind hrest
    cases hskip
    cases hrest
    exact ⟨length_pastClosing_le _ _ _, rfl, closes_of_pastClosing⟩

/-- The sections of a description are read one after the other, up to the parenthesis that closes
the description. -/
theorem spans_of_sections {unsupported : List String} (n : Nat) {s s' : List Heading × Outline}
    {c c' : Cursor} (hn : c.rest.length ≤ n) (hc' : c'.rest = [])
    (h : (untilClosingWithin (nextSection unsupported) n s c).2 = .ok (s', c')) :
  ∃ ss, s'.2.sections = s.2.sections ++ ss ∧ Spans c.rest ss
  := by
  induction n generalizing s c with
  | zero =>
    obtain ⟨h', c'', hheading, -⟩ := exists_of_bind h
    obtain ⟨_, _, hc, -⟩ := rest_of_heading hheading
    rw [hc] at hn
    contradiction
  | succ n ih =>
    rcases cases_of_untilClosingWithin h with ⟨rfl, t, hc, ht⟩ | ⟨s'', c₂, hsection, hrest⟩
    · rw [hc, hc']
      exact ⟨[], (List.append_nil _).symm, .close ht⟩
    · obtain ⟨h', c₁, hheading, henter⟩ := exists_of_bind hsection
      obtain ⟨o', _, henter, hpure⟩ := exists_of_bind henter
      cases hpure
      obtain ⟨p, t, hc, hp, ht, -⟩ := rest_of_heading hheading
      obtain ⟨hlength, hsections, hown⟩ := rest_of_enter henter
      have hle : c₂.rest.length ≤ n := by
        rw [hc, List.length_cons, List.length_cons] at hn
        omega
      obtain ⟨ss, hss, hspans⟩ := ih hle hrest
      obtain ⟨own, hc₁, hcloses⟩ := hown hspans.ne_nil
      refine ⟨located h' c₁.rest ++ ss, ?_, ?_⟩
      · rw [hss, hsections, List.append_assoc]
      · rw [hc, hc₁]
        apply Spans.block hp ht hcloses hspans

theorem spans_of_body {l : Layout} {o : Outline} {c c' : Cursor}
    (h : (body l c).2 = .ok (o, c')) :
  Spans c.rest o.sections
  := by
  obtain ⟨s, c'', huntil, hrest⟩ := exists_of_bind h
  obtain ⟨_, c''', hmore, hrest⟩ := exists_of_bind hrest
  cases hrest
  have hempty : c''.rest = [] := by
    unfold noMore at hmore
    split at hmore
    · assumption
    · contradiction
  obtain ⟨ss, hss, hspans⟩ := spans_of_sections _ le_rfl hempty huntil
  rw [hss]
  exact hspans

/-- The title of a description takes six tokens, its name among them. -/
theorem rest_of_title {word : String} {name : Token} {c c' : Cursor}
    (h : (title word c).2 = .ok (name, c')) :
  ∃ head, c.rest = head ++ c'.rest ∧ head.length = 6 ∧ name ∈ head ∧ name.kind = .name
  := by
  obtain ⟨_, c₁, hopening, h⟩ := exists_of_bind h
  obtain ⟨t₂, c₂, hdefine, h⟩ := exists_of_bind h
  obtain ⟨_, c₃, hopening', h⟩ := exists_of_bind h
  obtain ⟨t₄, c₄, hword, h⟩ := exists_of_bind h
  obtain ⟨t₅, c₅, hname, h⟩ := exists_of_bind h
  obtain ⟨_, hclosing, rfl⟩ := exists_of_bind_pure h
  obtain ⟨t₁, h₁⟩ := rest_of_opening hopening
  obtain ⟨t₃, h₃⟩ := rest_of_opening hopening'
  obtain ⟨h₅, hkind⟩ := rest_of_expect hname
  obtain ⟨t₆, h₆⟩ := rest_of_closing hclosing
  refine ⟨[t₁, t₂, t₃, t₄, name, t₆], ?_, rfl, by simp, of_decide_eq_true hkind⟩
  rw [h₁, (rest_of_expect hdefine).1, h₃, (rest_of_expect hword).1, h₅, h₆]
  rfl

end Outline

/-! ### Outlines of descriptions -/

/-- The tokens of a domain are its title and its body. -/
theorem Domain.exists_of_outline {name : Token} {o : Outline} {c c' : Cursor}
    (h : (outline c).2 = .ok ((name, o), c')) :
  ∃ head c₁, c.rest = head ++ c₁.rest ∧ head.length = 6 ∧ (name ∈ head ∧ name.kind = .name) ∧
    (Outline.body layout c₁).2 = .ok (o, c')
  := by
  obtain ⟨_, c₁, htitle, h⟩ := Reader.exists_of_bind h
  obtain ⟨_, hbody, heq⟩ := Reader.exists_of_bind_pure h
  cases heq
  obtain ⟨head, hhead, hlength, hname, hkind⟩ := Outline.rest_of_title htitle
  exact ⟨head, c₁, hhead, hlength, ⟨hname, hkind⟩, hbody⟩

/-- The tokens of a problem are its title, the name of its domain and its body. -/
theorem Problem.exists_of_outline {name domain : Token} {o : Outline} {c c' : Cursor}
    (h : (outline c).2 = .ok ((name, domain, o), c')) :
  ∃ head c₁, c.rest = head ++ c₁.rest ∧ head.length = 10 ∧ (name ∈ head ∧ name.kind = .name) ∧
    (domain ∈ head ∧ domain.kind = .name) ∧ (Outline.body layout c₁).2 = .ok (o, c')
  := by
  obtain ⟨_, c₁, htitle, h⟩ := Reader.exists_of_bind h
  obtain ⟨_, c₂, hopening, h⟩ := Reader.exists_of_bind h
  obtain ⟨t₂, c₃, hkeyword, h⟩ := Reader.exists_of_bind h
  obtain ⟨_, c₄, hdomain, h⟩ := Reader.exists_of_bind h
  obtain ⟨_, c₅, hclosing, h⟩ := Reader.exists_of_bind h
  obtain ⟨_, hbody, heq⟩ := Reader.exists_of_bind_pure h
  cases heq
  obtain ⟨head, hhead, hlength, hname, hkind⟩ := Outline.rest_of_title htitle
  obtain ⟨t₁, h₁⟩ := Reader.rest_of_opening hopening
  obtain ⟨h₃, hkind'⟩ := Reader.rest_of_expect hdomain
  obtain ⟨t₄, h₄⟩ := Reader.rest_of_closing hclosing
  refine ⟨head ++ [t₁, t₂, domain, t₄], c₅, ?_, by simp [hlength],
    ⟨List.mem_append_left _ hname, hkind⟩, ⟨by simp, of_decide_eq_true hkind'⟩, hbody⟩
  rw [hhead, h₁, (Reader.rest_of_expectAfter hkeyword).1, h₃, h₄]
  simp

end PlanLang
