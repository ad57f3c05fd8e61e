import Mathlib
import PlanLang.Proofs.Description
import PlanLang.Proofs.Reader.Recognition

/-!
# Titles

The first four tokens of a source tell whether it is the description of a domain, of a problem or of
neither.  What is read as such a description begins with these tokens, and a source that does not is
refused with a single error, which points out the first of them that is missing.
-/

namespace PlanLang

/-- What is asked of a token, and the word for it in messages. -/
structure Sign where
  word : String
  fits : Token → Bool

/-- The tokens do not begin as the signs ask, and the error points out the first of them that does
not fit, or the end of the tokens where they end before that.  The position `start` is that of the
token in front of them. -/
def Sign.DepartsFrom (start : Position) (signs : List Sign) (tokens : List Token)
    (e : SyntaxError) : Prop :=
  ∃ front sign back read rest, signs = front ++ sign :: back ∧ tokens = read ++ rest ∧
    List.Forall₂ (fun (s : Sign) t => s.fits t) front read ∧
    ((rest = [] ∧ e = ⟨Token.lastPosition start read, .expected none [sign.word]⟩) ∨
      ∃ t ∈ rest.head?, sign.fits t = false ∧
        e = ⟨t.position, .expected (some t.text) [sign.word]⟩)

/-- Tokens begin as signs ask, or one of them is the first that does not. -/
theorem Sign.fits_or_departsFrom (start : Position) (signs : List Sign) (tokens : List Token) :
  (∃ read rest, tokens = read ++ rest ∧ List.Forall₂ (fun (s : Sign) t => s.fits t) signs read) ∨
    ∃ e, DepartsFrom start signs tokens e
  := by
  induction signs generalizing start tokens with
  | nil => exact .inl ⟨[], tokens, rfl, .nil⟩
  | cons sign signs ih =>
    cases tokens with
    | nil => exact .inr ⟨_, [], sign, signs, [], [], rfl, rfl, .nil, .inl ⟨rfl, rfl⟩⟩
    | cons t tokens =>
      by_cases ht : sign.fits t
      · rcases ih t.position tokens with ⟨read, rest, rfl, hread⟩ |
          ⟨e, front, s, back, read, rest, rfl, rfl, hread, he⟩
        · exact .inl ⟨t :: read, rest, rfl, .cons ht hread⟩
        · rw [← Token.lastPosition_cons start] at he
          exact .inr ⟨e, sign :: front, s, back, t :: read, rest, rfl, rfl, .cons ht hread, he⟩
      · exact .inr ⟨_, [], sign, signs, [], t :: tokens, rfl, rfl, .nil,
          .inr ⟨t, rfl, Bool.eq_false_of_not_eq_true ht, rfl⟩⟩

namespace Reader

variable {α β : Type}

/-- The reader asks for the signs before anything else. -/
def Asks (r : Reader α) (signs : List Sign) : Prop :=
  ∀ start tokens e, Sign.DepartsFrom start signs tokens e → (r ⟨tokens, start⟩).2 = .error e

theorem asks_nil (r : Reader α) :
  r.Asks []
  := by
  rintro start tokens e ⟨front, sign, back, read, rest, heq, -⟩
  exact absurd heq.symm (List.append_ne_nil_of_right_ne_nil front (List.cons_ne_nil sign back))

/-- A token that has to fit a sign is asked for, and then what is asked for behind it. -/
theorem Asks.expect_bind {f : Token → Reader α} {sign : Sign} {signs : List Sign}
    (hf : ∀ t, (f t).Asks signs) :
  (expect sign.fits [sign.word] >>= f).Asks (sign :: signs)
  := by
  rintro start tokens e ⟨front, s, back, read, rest, hsigns, rfl, hread, he⟩
  cases hread with
  | nil =>
    obtain ⟨rfl, rfl⟩ := List.cons.inj hsigns
    apply (bind_of_error f _).2
    rcases he with ⟨rfl, rfl⟩ | ⟨t, ht, hfits, rfl⟩
    · rfl
    · obtain ⟨rest', rfl⟩ := List.head?_eq_some_iff.mp ht
      simp [expect, hfits]
  | @cons s' t front read ht hread =>
    obtain ⟨rfl, rfl⟩ := List.cons.inj hsigns
    have hfirst : (expect sign.fits [sign.word] ⟨t :: read ++ rest, start⟩).2
        = .ok (t, ⟨read ++ rest, t.position⟩) := by
      simp [expect, ht]
    rw [(bind_of_ok f hfirst).2]
    rw [Token.lastPosition_cons] at he
    exact hf t t.position _ e ⟨front, s, back, read, rest, rfl, rfl, hread, he⟩

end Reader

namespace Outline

open Reader

/-- The tokens at the beginning of a description of the sort `word`. -/
def titleSigns (word : String) : List Sign :=
  [⟨"(", (·.kind = .opening)⟩, ⟨"define", (·.isName "define")⟩, ⟨"(", (·.kind = .opening)⟩,
    ⟨word, (·.isName word)⟩]

theorem isTitled_iff {word : String} {tokens : List Token} :
  isTitled word tokens ↔ ∃ a b c d rest, tokens = a :: b :: c :: d :: rest ∧ a.kind = .opening ∧
    b.isName "define" ∧ c.kind = .opening ∧ d.isName word
  := by
  constructor
  · intro h
    unfold isTitled at h
    split at h
    · rename_i a b c d rest
      simp only [Bool.and_eq_true, decide_eq_true_eq, and_assoc] at h
      exact ⟨a, b, c, d, rest, rfl, h⟩
    · contradiction
  · rintro ⟨a, b, c, d, rest, rfl, h⟩
    simpa only [isTitled, Bool.and_eq_true, decide_eq_true_eq, and_assoc] using h

/-- The first tokens are those of a description of the sort `word` if they fit its signs. -/
theorem isTitled_iff_fits {word : String} {tokens : List Token} :
  isTitled word tokens ↔ ∃ read rest, tokens = read ++ rest ∧
    List.Forall₂ (fun (s : Sign) t => s.fits t) (titleSigns word) read
  := by
  simp only [isTitled_iff, titleSigns, List.forall₂_cons_left_iff, List.forall₂_nil_left_iff,
    decide_eq_true_eq]
  constructor
  · rintro ⟨a, b, c, d, rest, rfl, ha, hb, hc, hd⟩
    exact ⟨[a, b, c, d], rest, rfl, a, _, ha, ⟨b, _, hb, ⟨c, _, hc, ⟨d, _, hd, rfl, rfl⟩, rfl⟩, rfl⟩,
      rfl⟩
  · rintro ⟨_, rest, rfl, a, _, ha, ⟨b, _, hb, ⟨c, _, hc, ⟨d, _, hd, rfl, rfl⟩, rfl⟩, rfl⟩, rfl⟩
    exact ⟨a, b, c, d, rest, rfl, ha, hb, hc, hd⟩

/-- No description is of two sorts. -/
theorem sameWord_of_isTitled {word word' : String} {tokens : List Token}
    (h : isTitled word tokens) (h' : isTitled word' tokens) :
  sameWord word word'
  := by
  obtain ⟨a, b, c, d, rest, rfl, -, -, -, hd⟩ := isTitled_iff.mp h
  obtain ⟨_, _, _, _, _, ⟨⟩, -, -, -, hd'⟩ := isTitled_iff.mp h'
  rw [Token.isName, Bool.and_eq_true] at hd hd'
  exact sameWord_trans (sameWord_symm hd.2) hd'.2

theorem asks_opening_bind {α : Type} {f : Unit → Reader α} {signs : List Sign}
    (hf : (f ()).Asks signs) :
  (opening >>= f).Asks (⟨"(", (·.kind = .opening)⟩ :: signs)
  := by
  rw [opening, bind_assoc]
  exact Asks.expect_bind fun _ => hf

theorem asks_title_bind {α : Type} (word : String) (f : Token → Reader α) :
  (title word >>= f).Asks (titleSigns word)
  := by
  rw [title, bind_assoc]
  apply asks_opening_bind
  rw [bind_assoc]
  apply Asks.expect_bind
  intro _
  rw [bind_assoc]
  apply asks_opening_bind
  rw [bind_assoc]
  apply Asks.expect_bind
  exact fun _ => asks_nil _

/-- Tokens at whose beginning there is no title depart from its signs. -/
theorem exists_departsFrom {word : String} {tokens : List Token} (h : isTitled word tokens = false) :
  ∃ e, Sign.DepartsFrom .start (titleSigns word) tokens e
  := by
  rcases Sign.fits_or_departsFrom .start (titleSigns word) tokens with hfits | hdeparts
  · rw [isTitled_iff_fits.mpr hfits] at h
    contradiction
  · exact hdeparts

end Outline

/-! ### Domains and problems -/

open Outline

theorem Domain.ofTokens_of_departsFrom (T : Option Ty) {tokens : List Token} {e : SyntaxError}
    (h : Sign.DepartsFrom .start (titleSigns "domain") tokens e) :
  ofTokens T tokens = .error [e]
  := ofTokens_of_error (asks_title_bind "domain" _ .start tokens e h)

theorem Problem.ofTokens_of_departsFrom (T : Option Ty) {tokens : List Token} {e : SyntaxError}
    (h : Sign.DepartsFrom .start (titleSigns "problem") tokens e) :
  ofTokens T tokens = .error [e]
  := ofTokens_of_error (asks_title_bind "problem" _ .start tokens e h)

variable {T : Option Ty} {source : String}

theorem Domain.isDomain_of_parse {d : Domain} (h : parse T source = .ok d) :
  isDomain source
  := by
  by_contra hnot
  obtain ⟨e, he⟩ := exists_departsFrom (Bool.eq_false_of_not_eq_true hnot)
  rw [parse, ofTokens_of_departsFrom T he] at h
  contradiction

theorem Problem.isProblem_of_parse {p : Problem} (h : parse T source = .ok p) :
  isProblem source
  := by
  by_contra hnot
  obtain ⟨e, he⟩ := exists_departsFrom (Bool.eq_false_of_not_eq_true hnot)
  rw [parse, ofTokens_of_departsFrom T he] at h
  contradiction

/-- A source that is read as a domain begins like a domain and not like a problem, and the other way
round; no source begins like both.  One that does not begin like a domain is refused as a domain,
with a single error that points out the first of its first four tokens that differs, or the end of
the source where this comes before; and the same with problems. -/
theorem parse_and_title (T : Option Ty) (source : String) :
  (∀ d, Domain.parse T source = .ok d →
    Domain.isDomain source ∧ Problem.isProblem source = false) ∧
  (∀ p, Problem.parse T source = .ok p →
    Problem.isProblem source ∧ Domain.isDomain source = false) ∧
  ¬(Domain.isDomain source ∧ Problem.isProblem source) ∧
  (Domain.isDomain source = false →
    ∃ e, Sign.DepartsFrom .start (titleSigns "domain") (tokenize source) e ∧
      Domain.parse T source = .error [e]) ∧
  (Problem.isProblem source = false →
    ∃ e, Sign.DepartsFrom .start (titleSigns "problem") (tokenize source) e ∧
      Problem.parse T source = .error [e])
  := by
  have hboth : ¬(Domain.isDomain source ∧ Problem.isProblem source) := by
    rintro ⟨hdomain, hproblem⟩
    have hwords := sameWord_of_isTitled hdomain hproblem
    revert hwords
    decide +kernel
  refine ⟨?_, ?_, hboth, ?_, ?_⟩
  · intro d h
    have htitled := Domain.isDomain_of_parse h
    exact ⟨htitled, Bool.eq_false_of_not_eq_true fun hother => hboth ⟨htitled, hother⟩⟩
  · intro p h
    have htitled := Problem.isProblem_of_parse h
    exact ⟨htitled, Bool.eq_false_of_not_eq_true fun hother => hboth ⟨hother, htitled⟩⟩
  · intro h
    obtain ⟨e, he⟩ := exists_departsFrom h
    exact ⟨e, he, Domain.ofTokens_of_departsFrom T he⟩
  · intro h
    obtain ⟨e, he⟩ := exists_departsFrom h
    exact ⟨e, he, Problem.ofTokens_of_departsFrom T he⟩

/-- A domain behind a comment, a problem, a source whose third token differs from that of a domain,
and one that ends where the sort of a problem should stand. -/
theorem parse_and_title_lines :
  let domain := "; ferry\n(define (domain d))"
  let problem := "(define (problem p) (:domain d))"
  let bracket := "(define\n  [domain d])"
  let ended := "(define ( "
  (∃ d, Domain.parse none domain = .ok d ∧ Domain.isDomain domain ∧
    Problem.isProblem domain = false) ∧
  (∃ p, Problem.parse none problem = .ok p ∧ Problem.isProblem problem ∧
    Domain.isDomain problem = false) ∧
  (Domain.isDomain bracket = false ∧
    Sign.DepartsFrom .start (titleSigns "domain") (tokenize bracket)
      ⟨⟨2, 3⟩, .expected (some "[") ["("]⟩ ∧
    Domain.parse none bracket = .error [⟨⟨2, 3⟩, .expected (some "[") ["("]⟩]) ∧
  Problem.isProblem ended = false ∧
    Sign.DepartsFrom .start (titleSigns "problem") (tokenize ended)
      ⟨⟨1, 9⟩, .expected none ["problem"]⟩ ∧
    Problem.parse none ended = .error [⟨⟨1, 9⟩, .expected none ["problem"]⟩]
  := by
  intro domain problem bracket ended
  refine ⟨?_, ?_, ?_, ?_⟩
  · have haccepted : (Domain.parse none "; ferry\n(define (domain d))").isOk := by cbv
    cases h : Domain.parse none domain with
    | error es =>
      rw [h] at haccepted
      contradiction
    | ok d => exact ⟨d, rfl, (parse_and_title none domain).1 d h⟩
  · have haccepted : (Problem.parse none "(define (problem p) (:domain d))").isOk := by cbv
    cases h : Problem.parse none problem with
    | error es =>
      rw [h] at haccepted
      contradiction
    | ok p => exact ⟨p, rfl, (parse_and_title none problem).2.1 p h⟩
  · have hnot : Domain.isDomain "(define\n  [domain d])" = false := by cbv
    have herror : Domain.parse none "(define\n  [domain d])"
        = .error [⟨⟨2, 3⟩, .expected (some "[") ["("]⟩] := by
      cbv
    obtain ⟨e, he, hparse⟩ := (parse_and_title none bracket).2.2.2.1 hnot
    cases hparse.symm.trans herror
    exact ⟨hnot, he, hparse⟩
  · have hnot : Problem.isProblem "(define ( " = false := by cbv
    have herror : Problem.parse none "(define ( "
        = .error [⟨⟨1, 9⟩, .expected none ["problem"]⟩] := by
      cbv
    obtain ⟨e, he, hparse⟩ := (parse_and_title none ended).2.2.2.2 hnot
    cases hparse.symm.trans herror
    exact ⟨hnot, he, hparse⟩

end PlanLang
