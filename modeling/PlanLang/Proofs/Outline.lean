import Mathlib
import PlanLang.Proofs.Description
import PlanLang.Proofs.Section

/-!
# Errors in descriptions

Finding the outline of a description reports nothing.  An error in a description is therefore one
of its outline, or one of its sections, and both are errors in the text.
-/

namespace PlanLang

namespace Outline

open Reader

/-! ### The outline -/

theorem silent_requirement (s : Requirements) :
  (requirement s).Silent
  := by
  apply (silent_expect _ _).bind
  intro t
  cases Requirement.ofKeyword? t.text with
  | some r => apply silent_pure
  | none => exact silent_stop rfl

theorem silent_checkTyping (o : Outline) (k : SectionKind) :
  (checkTyping o k).Silent
  := by
  constructor
  · intro c
    unfold Reader.steps checkTyping
    split <;> rfl
  · intro c e h
    unfold checkTyping at h
    split at h
    · cases h
      rfl
    · contradiction

theorem silent_enter (o : Outline) (h : Heading) :
  (o.enter h).Silent
  := by
  cases h with
  | requirements =>
    apply (silent_untilClosing silent_requirement _).bind
    intro s
    apply silent_pure
  | contents k =>
    apply (silent_checkTyping o k).bind
    intro _
    apply silent_skipContents.bind
    intro tokens
    apply silent_pure

theorem silent_heading (unsupported : List String) (allowed : List Heading) :
  (heading unsupported allowed).Silent
  := by
  apply (silent_expectAfter _ _).bind
  intro _
  apply (silent_expect _ _).bind
  intro t
  cases allowed.find? fun h => t.isKeyword h.keyword with
  | some h => apply silent_pure
  | none =>
    cases unsupported.find? t.isKeyword with
    | some word => exact silent_stop rfl
    | none => exact silent_stop rfl

theorem silent_nextSection (unsupported : List String) (s : List Heading × Outline) :
  (nextSection unsupported s).Silent
  := by
  obtain ⟨allowed, o⟩ := s
  apply (silent_heading _ _).bind
  intro h
  apply (silent_enter o h).bind
  intro o
  apply silent_pure

theorem silent_body (l : Layout) :
  (body l).Silent
  := by
  apply (silent_untilClosing (silent_nextSection l.unsupported) _).bind
  intro s
  apply silent_noMore.bind
  intro _
  apply silent_pure

theorem silent_title (word : String) :
  (title word).Silent
  := by
  apply silent_opening.bind
  intro _
  apply (silent_expect _ _).bind
  intro _
  apply silent_opening.bind
  intro _
  apply (silent_expect _ _).bind
  intro _
  apply (silent_expect _ _).bind
  intro name
  apply silent_closing.bind
  intro _
  apply silent_pure

/-! ### The sections -/

/-- The errors of the sections of an outline are textual. -/
theorem isTextual_of_read {o : Outline} {gate : Gate} {T : Option Ty} {es : List SyntaxError}
    (h : o.read gate T = .error es) :
  ∀ e ∈ es, e.isTextual
  := by
  intro e he
  obtain ⟨k, tokens, -, herror⟩ := exists_of_read_error h e he
  apply SectionKind.isTextual_of_read herror

/-- A description whose outline is found by a silent reader has textual errors only. -/
theorem isTextual_of_outline {α β : Type} {r : Reader α} (hr : r.Silent) (o : α → Outline)
    (gate : α → Gate) (result : α → List Section → β) {T : Option Ty} {tokens : List Token}
    {es : List SyntaxError}
    (h : (do
      let (a, _) ← (r (.start tokens)).2.mapError ([·])
      let ss ← (o a).read (gate a) T
      return result a ss) = .error es) :
  ∀ e ∈ es, e.isTextual
  := by
  cases houtline : (r (.start tokens)).2 with
  | error e =>
    obtain rfl : [e] = es := by
      simpa [houtline, Except.mapError, bind, Except.bind] using h
    intro e' he
    obtain rfl := List.mem_singleton.mp he
    apply hr.textual houtline
  | ok p =>
    obtain ⟨a, c⟩ := p
    cases hread : (o a).read (gate a) T with
    | error es' =>
      obtain rfl : es' = es := by
        simpa [houtline, hread, Except.mapError, bind, Except.bind] using h
      apply isTextual_of_read hread
    | ok ss => simp [houtline, hread, Except.mapError, bind, Except.bind, pure, Except.pure] at h

end Outline

/-! ### Descriptions -/

theorem Domain.silent_outline :
  outline.Silent
  := by
  apply (Outline.silent_title _).bind
  intro name
  apply (Outline.silent_body _).bind
  intro o
  apply Reader.silent_pure

theorem Problem.silent_outline :
  outline.Silent
  := by
  apply (Outline.silent_title _).bind
  intro name
  apply Reader.silent_opening.bind
  intro _
  apply (Reader.silent_expectAfter _ _).bind
  intro _
  apply (Reader.silent_expect _ _).bind
  intro domain
  apply Reader.silent_closing.bind
  intro _
  apply (Outline.silent_body _).bind
  intro o
  apply Reader.silent_pure

/-- The errors in a domain are textual. -/
theorem Domain.isTextual_of_ofTokens {T : Option Ty} {tokens : List Token}
    {es : List SyntaxError} (h : ofTokens T tokens = .error es) :
  ∀ e ∈ es, e.isTextual
  := Outline.isTextual_of_outline silent_outline Prod.snd (fun p => .declared p.2.available)
    (fun p => ofSections p.1.name p.2.available) h

/-- The errors in a problem are textual. -/
theorem Problem.isTextual_of_ofTokens {T : Option Ty} {tokens : List Token}
    {es : List SyntaxError} (h : ofTokens T tokens = .error es) :
  ∀ e ∈ es, e.isTextual
  := Outline.isTextual_of_outline silent_outline (fun p => p.2.2) (fun p => gate p.2.2)
    (fun p => ofSections p.1.name p.2.1.name p.2.2.available) h

/-- Whatever tokens a section is read from, every event of its report is accepted.  So no error
in a description says that what has been read does not make up a construct. -/
theorem accepted_and_textual (T : Option Ty) (source : String) :
  (∀ (k : SectionKind) (tokens : List Token), ∃ d,
      Draft.onEvents (Step.events (k.reader.steps (.start tokens))) (.new T) = .ok () d) ∧
    (∀ es, Domain.parse T source = .error es → ∀ e ∈ es, ∀ b, e.kind ≠ .construct b) ∧
    (∀ es, Problem.parse T source = .error es → ∀ e ∈ es, ∀ b, e.kind ≠ .construct b)
  := by
  have hkind : ∀ {e : SyntaxError}, e.isTextual → ∀ b, e.kind ≠ .construct b := by
    intro e he b hb
    rw [SyntaxError.isTextual, hb] at he
    contradiction
  refine ⟨?_, ?_, ?_⟩
  · intro k tokens
    apply (k.emits_reader T).accepted
  · intro es h e he
    apply hkind
    apply Domain.isTextual_of_ofTokens h e he
  · intro es h e he
    apply hkind
    apply Problem.isTextual_of_ofTokens h e he

/-- Two sections of a problem that are left in the middle of a construct. -/
theorem accepted_and_textual_cut_off :
  ∃ e e', Problem.parse none
      "(define (problem p) (:domain d) (:init (not (on ?x))) (:goal (forall (?x - ) (p ?x))))"
        = .error [e, e'] ∧
    (∀ b, e.kind ≠ .construct b) ∧ ∀ b, e'.kind ≠ .construct b
  := by
  have hparse : Problem.parse none
      "(define (problem p) (:domain d) (:init (not (on ?x))) (:goal (forall (?x - ) (p ?x))))"
        = .error [⟨⟨1, 49⟩, .expected (some "?x") ["identifier", ")"]⟩,
          ⟨⟨1, 76⟩, .expected (some ")") ["identifier", "("]⟩] := by
    cbv
  have htextual := (accepted_and_textual none _).2.2 _ hparse
  exact ⟨_, _, hparse, htextual _ (by simp), htextual _ (by simp)⟩

end PlanLang
