import PlanLang.Proofs.Layout
import PlanLang.Proofs.Placement.Section

/-!
# Where the errors of descriptions point

The errors of a description point at the tokens that they report, wherever the description is
malformed.  There are three exceptions: where a section, the domain of a problem or the parameters
of an action should begin and something else stands there, the error points at the token before.
-/

namespace PlanLang

open Reader

/-! ### Outlines -/

namespace Outline

variable {late : List (List String)} {ts : List Token} {b : Bool}

theorem places_requirement (s : Requirements) :
  Places late ts b (requirement s) true
  := by
  apply Places.expect_bind
  intro t ht
  cases Requirement.ofKeyword? t.text with
  | some r => exact .pure _
  | none => exact .stop (.inl ⟨t, ht, rfl, rfl⟩)

theorem places_checkTyping (o : Outline) (k : SectionKind) :
  Places late ts b (checkTyping o k) b
  := by
  constructor
  · intro c a c' hc hok
    obtain ⟨-, rfl⟩ := checkTyping_ok_iff.mp hok
    exact hc
  · intro c e _ herror
    unfold checkTyping at herror
    split at herror
    · cases herror
      exact .inl trivial
    · contradiction

/-- What is passed over are tokens that come next. -/
theorem exists_passes_pastClosing (n : Nat) (last : Position) (ts : List Token) :
  ∃ us, (⟨ts, last⟩ : Cursor).Passes us (pastClosing n last ts)
  := by
  induction ts generalizing n last with
  | nil => exact ⟨[], .refl _⟩
  | cons t ts ih =>
    rw [pastClosing_cons]
    have hfirst : (⟨t :: ts, last⟩ : Cursor).Passes [t] ⟨ts, t.position⟩ := ⟨rfl, rfl⟩
    cases t.kind.depthAfter n with
    | zero => exact ⟨[t], hfirst⟩
    | succ m =>
      obtain ⟨us, hpasses⟩ := ih m t.position
      exact ⟨[t] ++ us, hfirst.trans hpasses⟩

theorem places_skipContents :
  Places late ts b skipContents b
  := by
  apply Places.of_passes
  intro c
  obtain ⟨us, hpasses⟩ := exists_passes_pastClosing 0 c.last c.rest
  exact ⟨_, _, us, rfl, hpasses⟩

theorem places_enter (o : Outline) (h : Heading) :
  Places late ts true (o.enter h) true
  := by
  cases h with
  | requirements => exact (Places.untilClosing places_requirement _).bind fun _ => .pure _
  | contents k =>
    apply (places_checkTyping o k).bind
    intro _
    exact places_skipContents.bind fun _ => .pure _

theorem places_heading (hlate : ["(", ")"] ∈ late) (unsupported : List String)
    (allowed : List Heading) :
  Places late ts true (heading unsupported allowed) true
  := by
  apply Places.expectAfter_bind hlate
  intro _
  apply Places.expect_bind
  intro t ht
  cases allowed.find? fun h => t.isKeyword h.keyword with
  | some h => exact .pure h
  | none =>
    cases hfind : unsupported.find? t.isKeyword with
    | some word =>
      have hkeyword := List.find?_some hfind
      rw [Token.isKeyword, Bool.and_eq_true] at hkeyword
      exact .stop (.inl ⟨t, ht, hkeyword.2, rfl⟩)
    | none => exact .stop (.inl ⟨t, ht, rfl, rfl⟩)

theorem places_body (hlate : ["(", ")"] ∈ late) (l : Layout) :
  Places late ts true (body l) true
  := by
  have hsection : ∀ s, Places late ts true (nextSection l.unsupported s) true := by
    rintro ⟨allowed, o⟩
    apply (places_heading hlate _ _).bind
    intro h
    exact (places_enter o h).bind fun _ => .pure _
  apply (Places.untilClosing hsection _).bind
  rintro ⟨_, o⟩
  exact Places.noMore.bind fun _ => .pure o

theorem places_title (word : String) :
  Places late ts b (title word) true
  := by
  apply Places.opening.bind
  intro _
  apply (Places.expect _ _).bind
  intro _
  apply Places.opening.bind
  intro _
  apply (Places.expect _ _).bind
  intro _
  apply (Places.expect _ _).bind
  intro name
  exact Places.closing.bind fun _ => .pure name

end Outline

theorem Domain.places_outline {late : List (List String)} (hlate : ["(", ")"] ∈ late)
    (ts : List Token) :
  Places late ts false outline true
  := by
  apply (Outline.places_title "domain").bind
  intro _
  exact (Outline.places_body hlate layout).bind fun _ => .pure _

theorem Problem.places_outline {late : List (List String)} (hlate : ["(", ")"] ∈ late)
    (hlate' : [":domain"] ∈ late) (ts : List Token) :
  Places late ts false outline true
  := by
  apply (Outline.places_title "problem").bind
  intro _
  apply Places.opening.bind
  intro _
  apply Places.expectAfter_bind hlate'
  intro _
  apply (Places.expect _ _).bind
  intro _
  apply Places.closing.bind
  intro _
  exact (Outline.places_body hlate layout).bind fun _ => .pure _

/-! ### Sections -/

theorem Cursor.among_start {ts us : List Token} (h : us <:+ ts) :
  (Cursor.start us).Among ts false
  := ⟨h, nofun⟩

/-- What is missing for a construct is reported without the text of a token. -/
theorem SyntaxError.isPlaced_missingRequirement {late : List (List String)} {ts : List Token}
    {e : SyntaxError} {r : Requirement} {what : String} (h : e.kind = .missingRequirement r what) :
  e.IsPlaced late ts
  := by
  left
  rw [PointsAt, h]
  trivial

/-- The errors of a section that is read from some of the last tokens are placed among all. -/
theorem SectionKind.isPlaced_of_read {k : SectionKind} {late : List (List String)}
    {ts us : List Token} (hlate : k = .action → [":parameters"] ∈ late) (hus : us <:+ ts)
    {gate : Gate} {T : Option Ty} {e : SyntaxError} (h : k.read gate T us = .error e) :
  e.IsPlaced late ts
  := by
  rcases check_or_reader_of_read h with hcheck | hreader
  · obtain ⟨r, what, hkind, -, -⟩ := Gate.exists_of_check_error hcheck
    exact SyntaxError.isPlaced_missingRequirement hkind
  · exact (k.places_reader hlate).part (Cursor.among_start hus) hreader

/-- The errors of the sections of an outline are placed among the tokens of the description. -/
theorem Outline.isPlaced_of_read {late : List (List String)} {tokens : List Token} {n : Nat}
    {bs : List Block} (hlate : ∀ b ∈ bs, b.heading = .contents .action → [":parameters"] ∈ late)
    {gate : Gate} {T : Option Ty} {es : List SyntaxError}
    (h : (ofBlocks tokens n bs).read gate T = .error es) :
  ∀ e ∈ es, e.IsPlaced late tokens
  := by
  intro e he
  obtain ⟨k, us, hmem, hread⟩ := exists_of_read_error h e he
  obtain ⟨hsuffix, b, hb, hheading⟩ := mem_sections_ofBlocks hmem
  apply SectionKind.isPlaced_of_read _ hsuffix hread
  rintro rfl
  exact hlate b hb hheading

/-! ### Descriptions -/

/-- The single error of an outline or the errors of sections, each of them placed. -/
theorem Domain.isPlaced_of_ofTokens {T : Option Ty} {tokens : List Token} {es : List SyntaxError}
    (h : ofTokens T tokens = .error es) :
  (∃ e, es = [e] ∧ e.IsPlaced [["(", ")"]] tokens) ∨
    ∀ e ∈ es, e.IsPlaced [[":parameters"]] tokens
  := by
  rcases cases_of_ofTokens h with ⟨e, houtline, rfl⟩ | ⟨name, o, c, houtline, hread⟩
  · exact .inl ⟨e, rfl, (places_outline List.mem_cons_self tokens).part
      (Cursor.among_start List.suffix_rfl) houtline⟩
  · right
    obtain ⟨bs, -, rfl⟩ := outline_ok_iff.mp ⟨c, houtline⟩
    exact Outline.isPlaced_of_read (fun _ _ _ => List.mem_cons_self) hread

/-- A problem has no actions, so that no errors of its sections point at the tokens before. -/
theorem Problem.isPlaced_of_ofTokens {T : Option Ty} {tokens : List Token}
    {es : List SyntaxError} (h : ofTokens T tokens = .error es) :
  (∃ e, es = [e] ∧ e.IsPlaced [["(", ")"], [":domain"]] tokens) ∨ ∀ e ∈ es, e.PointsAt tokens
  := by
  rcases cases_of_ofTokens h with ⟨e, houtline, rfl⟩ | ⟨name, domain, o, c, houtline, hread⟩
  · exact .inl ⟨e, rfl, (places_outline List.mem_cons_self (List.mem_cons_of_mem _
      List.mem_cons_self) tokens).part (Cursor.among_start List.suffix_rfl) houtline⟩
  · right
    obtain ⟨bs, ⟨_, _, _, -, -, -, hbs, -⟩, rfl⟩ := outline_ok_iff.mp ⟨c, houtline⟩
    have hnone : ∀ b ∈ bs, b.heading = .contents .action → [":parameters"] ∈ [] := by
      intro b hb hheading
      have hmem := hbs.headings b hb
      rw [hheading] at hmem
      exact absurd hmem (by decide)
    intro e he
    rcases Outline.isPlaced_of_read hnone hread e he with hat | ⟨_, _, _, _, _, -, hlate, -⟩
    · exact hat
    · contradiction

/-- The errors of a description point at tokens with the text that they report, but for three of
them: where a section, the domain of a problem or the parameters of an action should begin, the
error points at the token before the one that it reports.  The former two are then the only
error. -/
theorem parse_error_placed (T : Option Ty) (source : String) :
  (∀ es, Domain.parse T source = .error es →
    (∃ e, es = [e] ∧ e.IsPlaced [["(", ")"]] (tokenize source)) ∨
      ∀ e ∈ es, e.IsPlaced [[":parameters"]] (tokenize source)) ∧
  ∀ es, Problem.parse T source = .error es →
    (∃ e, es = [e] ∧ e.IsPlaced [["(", ")"], [":domain"]] (tokenize source)) ∨
      ∀ e ∈ es, e.PointsAt (tokenize source)
  := ⟨fun _ => Domain.isPlaced_of_ofTokens, fun _ => Problem.isPlaced_of_ofTokens⟩

/-- A list of parameters and a goal that are not closed by what should close them. -/
theorem parse_error_placed_dash :
  let domain := "(define (domain d) (:action a :parameters (x) :effect ()) (:action b - ()))"
  let problem := "(define (problem p) (:domain d) (:goal (exists (?x) (q ?x))))"
  (∃ es, Domain.parse none domain = .error es ∧
    es = [⟨⟨1, 44⟩, .expected (some "x") ["variable", ")"]⟩,
      ⟨⟨1, 68⟩, .expected (some "-") [":parameters"]⟩] ∧
    ((∃ e, es = [e] ∧ e.IsPlaced [["(", ")"]] (tokenize domain)) ∨
      ∀ e ∈ es, e.IsPlaced [[":parameters"]] (tokenize domain))) ∧
  ∃ es, Problem.parse none problem = .error es ∧
    es = [⟨⟨1, 41⟩, .unsupported "exists"⟩] ∧
    ((∃ e, es = [e] ∧ e.IsPlaced [["(", ")"], [":domain"]] (tokenize problem)) ∨
      ∀ e ∈ es, e.PointsAt (tokenize problem))
  := by
  intro domain problem
  have hdomain : Domain.parse none
      "(define (domain d) (:action a :parameters (x) :effect ()) (:action b - ()))"
        = .error [⟨⟨1, 44⟩, .expected (some "x") ["variable", ")"]⟩,
          ⟨⟨1, 68⟩, .expected (some "-") [":parameters"]⟩] := by
    cbv
  have hproblem : Problem.parse none
      "(define (problem p) (:domain d) (:goal (exists (?x) (q ?x))))"
        = .error [⟨⟨1, 41⟩, .unsupported "exists"⟩] := by
    cbv
  exact ⟨⟨_, hdomain, rfl, (parse_error_placed none domain).1 _ hdomain⟩,
    ⟨_, hproblem, rfl, (parse_error_placed none problem).2 _ hproblem⟩⟩

/-- Where the parameters of an action are missing, the error does not point at the keyword that it
reports. -/
theorem parse_error_not_pointing :
  let source := "(define (domain d) (:action a :effect ()))"
  ∃ e, Domain.parse none source = .error [e] ∧
    e = ⟨⟨1, 29⟩, .expected (some ":effect") [":parameters"]⟩ ∧ ¬e.PointsAt (tokenize source)
  := by
  intro source
  have hparse : Domain.parse none "(define (domain d) (:action a :effect ()))"
      = .error [⟨⟨1, 29⟩, .expected (some ":effect") [":parameters"]⟩] := by
    cbv
  have hwhere : ((tokenize "(define (domain d) (:action a :effect ()))").filter
      (·.text = ":effect")).map Token.position = [⟨1, 31⟩] := by
    cbv
  refine ⟨_, hparse, rfl, ?_⟩
  rintro ⟨t, ht, htext, hposition⟩
  have hmem : t.position ∈ [(⟨1, 31⟩ : Position)] := by
    rw [← hwhere]
    exact List.mem_map_of_mem (List.mem_filter.mpr ⟨ht, decide_eq_true htext⟩)
  rw [hposition] at hmem
  contradiction

end PlanLang
