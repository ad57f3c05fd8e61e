import PlanLang.Proofs.Outline.Written
import PlanLang.Proofs.Token.Cut

/-!
# Where descriptions end

A description ends with its last parenthesis.  If its source is cut off before, it is refused as one
that has ended, and if something follows in a new line, it is refused for that.  There is one error
in both cases, whatever sections the description has and wherever it is cut off.
-/

namespace PlanLang

open Reader

/-- Tokens that are read to the end cannot be read where they are cut off. -/
theorem Reader.Exhausts.runsOut_take {α : Type} {r : Reader α} {G : α → List Token → Prop}
    (h : r.Exhausts G) {a : α} {tokens : List Token} {c : Cursor}
    (hok : (r (.start tokens)).2 = .ok (a, c)) {k : Nat} (hk : k < tokens.length) :
  r.RunsOut (.start (tokens.take k))
  := by
  have htokens := (h.ok_iff.mp hok).1
  rw [Cursor.start, ← List.take_append_drop k tokens] at htokens
  apply h.cut htokens
  rw [ne_eq, List.drop_eq_nil_iff]
  omega

/-- Tokens that are read to the end cannot be read where others follow. -/
theorem Reader.Exhausts.extra_of_ok {α : Type} {r : Reader α} {G : α → List Token → Prop}
    (h : r.Exhausts G) {a : α} {tokens : List Token} {c : Cursor}
    (hok : (r (.start tokens)).2 = .ok (a, c)) (t : Token) (rest : List Token) :
  (r (.start (tokens ++ t :: rest))).2 = .error ⟨t.position, .extraInput t.text⟩
  := h.extra (h.ok_iff.mp hok).1 t rest .start

/-! ### Domains -/

namespace Domain

variable {T : Option Ty} {tokens : List Token} {d : Domain}

theorem ofTokens_take (h : ofTokens T tokens = .ok d) {k : Nat} (hk : k < tokens.length) :
  ∃ options, ofTokens T (tokens.take k) =
    .error [⟨Token.lastPosition .start (tokens.take k), .expected none options⟩]
  := by
  obtain ⟨_, _, _, _, houtline, -, -⟩ := exists_of_ofTokens h
  obtain ⟨options, herror⟩ := exhausts_outline.runsOut_take houtline hk
  exact ⟨options, ofTokens_of_error herror⟩

theorem ofTokens_append (h : ofTokens T tokens = .ok d) (t : Token) (rest : List Token) :
  ofTokens T (tokens ++ t :: rest) = .error [⟨t.position, .extraInput t.text⟩]
  := by
  obtain ⟨_, _, _, _, houtline, -, -⟩ := exists_of_ofTokens h
  exact ofTokens_of_error (exhausts_outline.extra_of_ok houtline t rest)

end Domain

/-! ### Problems -/

namespace Problem

variable {T : Option Ty} {tokens : List Token} {p : Problem}

theorem ofTokens_take (h : ofTokens T tokens = .ok p) {k : Nat} (hk : k < tokens.length) :
  ∃ options, ofTokens T (tokens.take k) =
    .error [⟨Token.lastPosition .start (tokens.take k), .expected none options⟩]
  := by
  obtain ⟨_, _, _, _, _, houtline, -, -⟩ := exists_of_ofTokens h
  obtain ⟨options, herror⟩ := exhausts_outline.runsOut_take houtline hk
  exact ⟨options, ofTokens_of_error herror⟩

theorem ofTokens_append (h : ofTokens T tokens = .ok p) (t : Token) (rest : List Token) :
  ofTokens T (tokens ++ t :: rest) = .error [⟨t.position, .extraInput t.text⟩]
  := by
  obtain ⟨_, _, _, _, _, houtline, -, -⟩ := exists_of_ofTokens h
  exact ofTokens_of_error (exhausts_outline.extra_of_ok houtline t rest)

end Problem

/-! ### Sources -/

/-- A text with tokens that comes in a new line adds a first token to a source. -/
theorem exists_first_tokenize_newline (source : String) {extra : String}
    (h : tokenize extra ≠ []) :
  ∃ t rest, tokenize (source ++ "\n" ++ extra) = tokenize source ++ t :: rest ∧
    (t :: rest).map Token.lexeme = (tokenize extra).map Token.lexeme
  := by
  obtain ⟨ts, htokens, hlexemes⟩ := exists_tokenize_newline source extra
  cases ts with
  | nil =>
    rw [List.map_nil, eq_comm, List.map_eq_nil_iff] at hlexemes
    exact absurd hlexemes h
  | cons t rest => exact ⟨t, rest, htokens, hlexemes⟩

/-- A description that is accepted is refused where its source is cut off behind any of its tokens
but the last, or in front of all of them: it is then said to end at the token where it is cut off.
It is refused too where a text with tokens comes in a new line, because of the first of these. -/
theorem parse_cutOff_or_newline (T : Option Ty) (source : String) :
  (∀ d, Domain.parse T source = .ok d →
    (∀ k < (tokenize source).length,
      tokenize (cutOff source k) = (tokenize source).take k ∧
      ∃ options, Domain.parse T (cutOff source k) =
        .error [⟨Token.lastPosition .start ((tokenize source).take k),
          .expected none options⟩]) ∧
    ∀ extra, tokenize extra ≠ [] →
      ∃ t rest, tokenize (source ++ "\n" ++ extra) = tokenize source ++ t :: rest ∧
        (t :: rest).map Token.lexeme = (tokenize extra).map Token.lexeme ∧
        Domain.parse T (source ++ "\n" ++ extra) = .error [⟨t.position, .extraInput t.text⟩]) ∧
  ∀ p, Problem.parse T source = .ok p →
    (∀ k < (tokenize source).length,
      tokenize (cutOff source k) = (tokenize source).take k ∧
      ∃ options, Problem.parse T (cutOff source k) =
        .error [⟨Token.lastPosition .start ((tokenize source).take k),
          .expected none options⟩]) ∧
    ∀ extra, tokenize extra ≠ [] →
      ∃ t rest, tokenize (source ++ "\n" ++ extra) = tokenize source ++ t :: rest ∧
        (t :: rest).map Token.lexeme = (tokenize extra).map Token.lexeme ∧
        Problem.parse T (source ++ "\n" ++ extra) = .error [⟨t.position, .extraInput t.text⟩]
  := by
  constructor
  · intro d h
    constructor
    · intro k hk
      refine ⟨tokenize_cutOff source k, ?_⟩
      rw [Domain.parse, tokenize_cutOff]
      exact Domain.ofTokens_take h hk
    · intro extra hextra
      obtain ⟨t, rest, htokens, hlexemes⟩ := exists_first_tokenize_newline source hextra
      refine ⟨t, rest, htokens, hlexemes, ?_⟩
      rw [Domain.parse, htokens]
      exact Domain.ofTokens_append h t rest
  · intro p h
    constructor
    · intro k hk
      refine ⟨tokenize_cutOff source k, ?_⟩
      rw [Problem.parse, tokenize_cutOff]
      exact Problem.ofTokens_take h hk
    · intro extra hextra
      obtain ⟨t, rest, htokens, hlexemes⟩ := exists_first_tokenize_newline source hextra
      refine ⟨t, rest, htokens, hlexemes, ?_⟩
      rw [Problem.parse, htokens]
      exact Problem.ofTokens_append h t rest

/-- A domain that is cut off among its requirements, and the same domain with a further parenthesis
behind a comment. -/
theorem parse_cutOff_or_newline_typing :
  let source := "(define (domain d) (:requirements :typing) (:types port))"
  ∃ d, Domain.parse none source = .ok d ∧
    cutOff source 9 = "(define (domain d) (:requirements :typing" ∧
    (∃ options, Domain.parse none (cutOff source 9) =
      .error [⟨Token.lastPosition .start ((tokenize source).take 9), .expected none options⟩]) ∧
    Token.lastPosition .start ((tokenize source).take 9) = ⟨1, 35⟩ ∧
    ∃ t rest, tokenize (source ++ "\n" ++ "; behind\n )") = tokenize source ++ t :: rest ∧
      (t :: rest).map Token.lexeme = [.closing] ∧
      Domain.parse none (source ++ "\n" ++ "; behind\n )") =
        .error [⟨t.position, .extraInput t.text⟩]
  := by
  intro source
  have haccepted : (Domain.parse none
      "(define (domain d) (:requirements :typing) (:types port))").isOk := by
    cbv
  have hlength : (tokenize "(define (domain d) (:requirements :typing) (:types port))").length
      = 15 := by
    cbv
  have hcut : cutOff "(define (domain d) (:requirements :typing) (:types port))" 9
      = "(define (domain d) (:requirements :typing" := by
    cbv
  have hlast : Token.lastPosition .start
      ((tokenize "(define (domain d) (:requirements :typing) (:types port))").take 9)
        = ⟨1, 35⟩ := by
    cbv
  have hextra : (tokenize "; behind\n )").map Token.lexeme = [.closing] := by
    cbv
  cases h : Domain.parse none source with
  | error es =>
    rw [h] at haccepted
    contradiction
  | ok d =>
    obtain ⟨hcutOff, hnewline⟩ := (parse_cutOff_or_newline none source).1 d h
    have hk : 9 < (tokenize source).length := by
      rw [hlength]
      decide
    have hne : tokenize "; behind\n )" ≠ [] := by
      intro hnil
      rw [hnil] at hextra
      contradiction
    obtain ⟨t, rest, htokens, hlexemes, herror⟩ := hnewline "; behind\n )" hne
    exact ⟨d, rfl, hcut, (hcutOff 9 hk).2, hlast, t, rest, htokens, hlexemes.trans hextra, herror⟩

end PlanLang
