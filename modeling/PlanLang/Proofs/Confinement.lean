import Mathlib
import PlanLang.Proofs.Confinement.Outline
import PlanLang.Proofs.Description

/-!
# Descriptions and their sections

The outline of a description and the readers of its sections agree on where each section ends.
So a description is wrong after its outline exactly where sections are wrong by themselves.
-/

namespace PlanLang

open Reader

/-- A section of the kind `k` that consists of the tokens `inside` and the parenthesis `q` is read
from these tokens, whatever follows. -/
structure SectionKind.IsConfined (k : SectionKind) (inside : List Token) (q : Token) : Prop where
  /-- If the section can be read, it ends right behind the parenthesis. -/
  ends : ∀ {gate T rest s c}, k.read gate T (inside ++ q :: rest) = .ok (s, c) →
    c = ⟨rest, q.position⟩
  /-- An error does not say that the source has ended, and it is at one of the tokens. -/
  errs : ∀ {gate T rest e}, k.read gate T (inside ++ q :: rest) = .error e →
    (∀ options, e.kind ≠ .expected none options) ∧
      e.position ∈ (inside ++ [q]).map Token.position
  /-- Other tokens in place of those that follow only stay unread in their place. -/
  same : ∀ gate T rest rest', k.read gate T (inside ++ q :: rest')
    = (k.read gate T (inside ++ q :: rest)).map fun (s, _) => (s, ⟨rest', q.position⟩)

/-- The tokens up to the parenthesis at which they are done passing over. -/
def Outline.own (ts : List Token) : List Token :=
  (pastClosing 0 .start ts).passed ts

/-- The errors of the sections, one for each that cannot be read, in order.  Each section is read
from its own tokens, as if nothing came after it. -/
def Outline.errors (o : Outline) (gate : Gate) (T : Option Ty) : List SyntaxError :=
  o.sections.filterMap fun (k, ts) => failure (k.read gate T (own ts))

/-- The sections of an outline are confined to their own tokens, which part the tokens from which
the outline has been read. -/
structure Outline.IsConfined (o : Outline) (tokens : List Token) (n : Nat) : Prop where
  /-- Behind the title, which has `n` tokens, there are only sections and the parenthesis that
  closes the description. -/
  parted : ∃ head body, tokens = head ++ body ∧ head.length = n ∧ Spans body o.sections
  /-- A section is confined to the tokens up to the parenthesis behind which passing over its
  contents has stopped. -/
  confined : ∀ {k ts}, (k, ts) ∈ o.sections →
    ∃ inside q rest, ts = inside ++ q :: rest ∧ q.kind = .closing ∧ own ts = inside ++ [q] ∧
      (∀ last, pastClosing 0 last ts = ⟨rest, q.position⟩) ∧ k.IsConfined inside q

/-! ### Sections -/

/-- Tokens of which the last closes what is open confine a section. -/
theorem SectionKind.isConfined (k : SectionKind) {inside : List Token} {q : Token}
    (h : closes 1 (inside ++ [q])) :
  k.IsConfined inside q
  := by
  have hcons : ∀ rest, inside ++ q :: rest = (inside ++ [q]) ++ rest := by simp
  -- behind its own tokens the cursor is at their end, which is where the others begin
  have hcursor : ∀ {gate T s c}, k.read gate T (inside ++ [q]) = .ok (s, c) →
      c = ⟨[], q.position⟩ := by
    intro gate T s c hread
    obtain ⟨inside', q', hown, rfl⟩ := cursor_of_read h hread
    obtain ⟨-, rfl⟩ := List.append_inj' hown rfl |>.imp_right List.singleton_inj.mp
    rfl
  have hread : ∀ gate T rest, k.read gate T (inside ++ q :: rest)
      = (k.read gate T (inside ++ [q])).map fun (s, _) => (s, ⟨rest, q.position⟩) := by
    intro gate T rest
    rw [hcons, read_append k gate T h rest]
    cases hown : k.read gate T (inside ++ [q]) with
    | error e => rfl
    | ok p =>
      obtain ⟨s, c⟩ := p
      obtain rfl := hcursor hown
      rfl
  constructor
  · intro gate T rest s c hok
    rw [hread] at hok
    cases hown : k.read gate T (inside ++ [q]) with
    | error e => simp [hown, Except.map] at hok
    | ok p =>
      obtain ⟨-, rfl⟩ : _ ∧ (⟨rest, q.position⟩ : Cursor) = c := by
        simpa [hown, Except.map] using hok
      rfl
  · intro gate T rest e herror
    rw [hread] at herror
    cases hown : k.read gate T (inside ++ [q]) with
    | error e' =>
      obtain rfl : e' = e := by simpa [hown, Except.map] using herror
      exact isAt_of_read h hown
    | ok p => simp [hown, Except.map] at herror
  · intro gate T rest rest'
    rw [hread gate T rest', hread gate T rest]
    cases k.read gate T (inside ++ [q]) <;> rfl

namespace Outline

/-- The tokens that close a section are its own. -/
theorem own_append {own' rest : List Token} (h : closes 1 own') :
  own (own' ++ rest) = own'
  := by
  obtain ⟨inside, q, -, -, hpast⟩ := pastClosing_of_closes h
  apply Cursor.passed_eq
  rw [hpast]

theorem Spans.isConfined {tokens head body : List Token} {o : Outline}
    (htokens : tokens = head ++ body) (h : Spans body o.sections) :
  o.IsConfined tokens head.length
  where
  parted := ⟨head, body, htokens, rfl, h⟩
  confined := by
    intro k ts hmem
    obtain ⟨own', rest, rfl, -, hown⟩ := h.exists_own k ts hmem
    obtain ⟨inside, q, rfl, hq, hpast⟩ := pastClosing_of_closes hown
    exact ⟨inside, q, rest, by simp, hq, own_append hown, fun last => hpast last rest,
      k.isConfined hown⟩

/-! ### Errors -/

/-- The sections are read with the errors that each of them gives by itself. -/
theorem IsConfined.read_error_iff {o : Outline} {tokens : List Token} {n : Nat}
    (h : o.IsConfined tokens n) {gate : Gate} {T : Option Ty} {es : List SyntaxError} :
  o.read gate T = .error es ↔ es ≠ [] ∧ es = o.errors gate T
  := by
  have herrors : (o.sections.map fun (k, ts) => (k.read gate T ts).map Prod.fst).filterMap failure
      = o.errors gate T := by
    rw [List.filterMap_map]
    apply List.filterMap_congr
    rintro ⟨k, ts⟩ hmem
    obtain ⟨inside, q, rest, rfl, -, hown, -, hconfined⟩ := h.confined hmem
    simp only [Function.comp_apply, hown]
    rw [hconfined.same gate T [] rest]
    cases k.read gate T (inside ++ [q]) <;> rfl
  rw [read, gather_error_iff, herrors]

end Outline

/-! ### Descriptions -/

/-- If the outline of a description can be read, then its tokens are parted among its sections, and
each section is confined to its own tokens.  So the description is wrong if and only if some of its
sections are, and its errors are those that the sections give by themselves. -/
theorem sections_confined (T : Option Ty) (source : String) :
  (∀ name o c, (Domain.outline (.start (tokenize source))).2 = .ok ((name, o), c) →
    o.IsConfined (tokenize source) 6 ∧
    ∀ es, Domain.parse T source = .error es ↔
      es ≠ [] ∧ es = o.errors (.declared o.available) T) ∧
  (∀ name domain o c, (Problem.outline (.start (tokenize source))).2 = .ok ((name, domain, o), c) →
    o.IsConfined (tokenize source) 10 ∧
    ∀ es, Problem.parse T source = .error es ↔ es ≠ [] ∧ es = o.errors (Problem.gate o) T)
  := by
  constructor
  · intro name o c h
    obtain ⟨head, c₁, htokens, hlength, -, hbody⟩ := Domain.exists_of_outline h
    have hconfined : o.IsConfined (tokenize source) 6 := by
      rw [← hlength]
      exact (Outline.spans_of_body hbody).isConfined htokens
    refine ⟨hconfined, ?_⟩
    intro es
    rw [← hconfined.read_error_iff]
    rw [Domain.parse, Domain.ofTokens_of_ok h]
    cases o.read (.declared o.available) T <;> simp [Except.map]
  · intro name domain o c h
    obtain ⟨head, c₁, htokens, hlength, -, -, hbody⟩ := Problem.exists_of_outline h
    have hconfined : o.IsConfined (tokenize source) 10 := by
      rw [← hlength]
      exact (Outline.spans_of_body hbody).isConfined htokens
    refine ⟨hconfined, ?_⟩
    intro es
    rw [← hconfined.read_error_iff]
    rw [Problem.parse, Problem.ofTokens_of_ok h]
    cases o.read (Problem.gate o) T <;> simp [Except.map]

/-- Two actions among three that are wrong: one has a name in place of a parameter, and one has no
parameters. -/
theorem sections_confined_actions :
  let source := "(define (domain d) (:action a :parameters (x)) " ++
    "(:action b :parameters ()) (:action c :effect ()))"
  ∃ name o c, (Domain.outline (.start (tokenize source))).2 = .ok ((name, o), c) ∧
    o.IsConfined (tokenize source) 6 ∧
    o.errors (.declared o.available) none =
      [⟨⟨1, 44⟩, .expected (some "x") ["variable", ")"]⟩,
        ⟨⟨1, 84⟩, .expected (some ":effect") [":parameters"]⟩]
  := by
  intro source
  have hparse : Domain.parse none ("(define (domain d) (:action a :parameters (x)) " ++
      "(:action b :parameters ()) (:action c :effect ()))") = .error
        [⟨⟨1, 44⟩, .expected (some "x") ["variable", ")"]⟩,
          ⟨⟨1, 84⟩, .expected (some ":effect") [":parameters"]⟩] := by
    cbv
  cases h : (Domain.outline (.start (tokenize source))).2 with
  | error e =>
    have htwo := hparse.symm.trans (Domain.ofTokens_of_error h)
    simp at htwo
  | ok p =>
    obtain ⟨⟨name, o⟩, c⟩ := p
    obtain ⟨hconfined, herrors⟩ := (sections_confined none source).1 name o c h
    exact ⟨name, o, c, rfl, hconfined, ((herrors _).mp hparse).2.symm⟩

end PlanLang
