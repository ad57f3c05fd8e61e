import Mathlib.Data.List.Forall2
import Mathlib.Tactic.ByContra
import PlanLang.Domain
import PlanLang.Problem

/-!
# Descriptions

A description is put together from its outline and from what is read of its sections.  It cannot be
read where its outline cannot be found or where sections cannot be read.
-/

namespace PlanLang

/-! ### Results of sections -/

namespace Outline

/-- The error of a result, if it is one. -/
def failure {ε α : Type} : Except ε α → Option ε
  | .ok _ => none
  | .error e => some e

/-- Gathering results fails with all their errors if there are any. -/
theorem gather_error_iff {ε α : Type} {rs : List (Except ε α)} {es : List ε} :
  gather rs = .error es ↔ es ≠ [] ∧ es = rs.filterMap failure
  := by
  induction rs generalizing es with
  | nil => simp [gather]
  | cons r rs ih =>
    cases r with
    | ok a =>
      rw [gather, List.filterMap_cons_none rfl, ← ih]
      cases gather rs <;> simp [Except.map]
    | error e =>
      have hall : gather (.error e :: rs) = .error (e :: rs.filterMap failure) := by
        rw [gather]
        cases hrs : gather rs with
        | ok as =>
          have hnone : rs.filterMap failure = [] := by
            by_contra hne
            have herror := ih.mpr ⟨hne, rfl⟩
            rw [hrs] at herror
            contradiction
          rw [hnone]
        | error es' =>
          obtain ⟨-, rfl⟩ := ih.mp hrs
          rfl
      have hfailure : failure (.error e : Except ε α) = some e := rfl
      rw [hall, List.filterMap_cons_some hfailure]
      constructor
      · rintro ⟨⟩
        exact ⟨List.cons_ne_nil _ _, rfl⟩
      · rintro ⟨-, rfl⟩
        rfl

/-- Gathered errors are errors of the results. -/
theorem mem_of_gather {ε α : Type} {rs : List (Except ε α)} {es : List ε}
    (h : gather rs = .error es) :
  ∀ e ∈ es, .error e ∈ rs
  := by
  obtain ⟨-, rfl⟩ := gather_error_iff.mp h
  intro e he
  obtain ⟨r, hr, hfailure⟩ := List.mem_filterMap.mp he
  cases r with
  | ok a => contradiction
  | error e' =>
    obtain rfl := Option.some.inj hfailure
    exact hr

/-- If results are gathered, then these are their values. -/
theorem forall₂_of_gather {ε α : Type} {rs : List (Except ε α)} {as : List α}
    (h : gather rs = .ok as) :
  List.Forall₂ (fun r a => r = .ok a) rs as
  := by
  induction rs generalizing as with
  | nil =>
    cases h
    exact .nil
  | cons r rs ih =>
    cases r with
    | ok a =>
      cases hrs : gather rs with
      | ok as' =>
        obtain rfl : a :: as' = as := by simpa [gather, hrs, Except.map] using h
        exact .cons rfl (ih hrs)
      | error es => simp [gather, hrs, Except.map] at h
    | error e => cases hrs : gather rs <;> simp [gather, hrs] at h

/-- Values of results that are all values are gathered. -/
theorem gather_of_forall₂ {ε α : Type} {rs : List (Except ε α)} {as : List α}
    (h : List.Forall₂ (fun r a => r = .ok a) rs as) :
  gather rs = .ok as
  := by
  induction h with
  | nil => rfl
  | cons h _ ih =>
    rw [h, gather, ih]
    rfl

/-- Sections that are read are read one by one. -/
theorem forall₂_of_read {o : Outline} {gate : Gate} {T : Option Ty} {ss : List Section}
    (h : o.read gate T = .ok ss) :
  List.Forall₂ (fun p s => ∃ c, SectionKind.read p.1 gate T p.2 = .ok (s, c)) o.sections ss
  := by
  have hsections := forall₂_of_gather h
  rw [List.forall₂_map_left_iff] at hsections
  apply hsections.imp
  rintro ⟨k, tokens⟩ s hs
  cases hread : k.read gate T tokens with
  | error e => simp [hread, Except.map] at hs
  | ok p =>
    obtain ⟨s', c⟩ := p
    obtain rfl : s' = s := by simpa [hread, Except.map] using hs
    exact ⟨c, rfl⟩

/-- Sections that can be read one by one are read. -/
theorem read_of_forall₂ {o : Outline} {gate : Gate} {T : Option Ty} {ss : List Section}
    (h : List.Forall₂ (fun p s => ∃ c, SectionKind.read p.1 gate T p.2 = .ok (s, c))
      o.sections ss) :
  o.read gate T = .ok ss
  := by
  apply gather_of_forall₂
  rw [List.forall₂_map_left_iff]
  apply h.imp
  rintro ⟨k, tokens⟩ s ⟨c, hread⟩
  simp only [hread, Except.map]

/-- The errors of sections are each the error of one of them. -/
theorem exists_of_read_error {o : Outline} {gate : Gate} {T : Option Ty} {es : List SyntaxError}
    (h : o.read gate T = .error es) :
  ∀ e ∈ es, ∃ k tokens, (k, tokens) ∈ o.sections ∧ k.read gate T tokens = .error e
  := by
  intro e he
  obtain ⟨⟨k, tokens⟩, hmem, hread⟩ := List.mem_map.mp (mem_of_gather h e he)
  refine ⟨k, tokens, hmem, ?_⟩
  cases hk : k.read gate T tokens with
  | error e' => simpa [hk, Except.map] using hread
  | ok p => simp [hk, Except.map] at hread

/-- Results are gathered with the same errors when their values are changed. -/
theorem gather_map {ε α β : Type} (f : α → β) (rs : List (Except ε α)) :
  gather (rs.map (Except.map f)) = (gather rs).map (List.map f)
  := by
  induction rs with
  | nil => rfl
  | cons r rs ih =>
    cases r with
    | ok a =>
      rw [List.map_cons, Except.map, gather, ih, gather]
      cases gather rs <;> rfl
    | error e =>
      rw [List.map_cons, Except.map, gather, ih, gather]
      cases gather rs <;> rfl

end Outline

/-! ### Domains -/

namespace Domain

variable {T : Option Ty} {tokens : List Token}

/-- Without an outline, a domain has one error. -/
theorem ofTokens_of_error {e : SyntaxError} (h : (outline (.start tokens)).2 = .error e) :
  ofTokens T tokens = .error [e]
  := by
  simp [ofTokens, h, Except.mapError, bind, Except.bind]

/-- A domain is put together from its name and its sections. -/
theorem ofTokens_of_ok {name : Token} {o : Outline} {c : Cursor}
    (h : (outline (.start tokens)).2 = .ok ((name, o), c)) :
  ofTokens T tokens = (o.read (.declared o.available) T).map (ofSections name.name o.available)
  := by
  simp only [ofTokens, h, Except.mapError, bind, Except.bind]
  cases o.read (.declared o.available) T <;> rfl

theorem exists_of_ofTokens {d : Domain} (h : ofTokens T tokens = .ok d) :
  ∃ name o c ss, (outline (.start tokens)).2 = .ok ((name, o), c) ∧
    o.read (.declared o.available) T = .ok ss ∧ d = ofSections name.name o.available ss
  := by
  cases houtline : (outline (.start tokens)).2 with
  | error e =>
    rw [ofTokens_of_error houtline] at h
    contradiction
  | ok p =>
    obtain ⟨⟨name, o⟩, c⟩ := p
    rw [ofTokens_of_ok houtline] at h
    cases hread : o.read (.declared o.available) T with
    | error es => simp [hread, Except.map] at h
    | ok ss =>
      rw [hread] at h
      cases h
      exact ⟨name, o, c, ss, rfl, hread, rfl⟩

/-- A domain has the error of its outline, or it has an outline and the errors of its sections. -/
theorem cases_of_ofTokens {es : List SyntaxError} (h : ofTokens T tokens = .error es) :
  (∃ e, (outline (.start tokens)).2 = .error e ∧ es = [e]) ∨
    ∃ name o c, (outline (.start tokens)).2 = .ok ((name, o), c) ∧
      o.read (.declared o.available) T = .error es
  := by
  cases houtline : (outline (.start tokens)).2 with
  | error e =>
    rw [ofTokens_of_error houtline] at h
    cases h
    exact .inl ⟨e, rfl, rfl⟩
  | ok p =>
    obtain ⟨⟨name, o⟩, c⟩ := p
    rw [ofTokens_of_ok houtline] at h
    refine .inr ⟨name, o, c, rfl, ?_⟩
    cases hread : o.read (.declared o.available) T with
    | error es' =>
      rw [hread] at h
      cases h
      rfl
    | ok ss => simp [hread, Except.map] at h

end Domain

/-! ### Problems -/

namespace Problem

variable {T : Option Ty} {tokens : List Token}

/-- Without an outline, a problem has one error. -/
theorem ofTokens_of_error {e : SyntaxError} (h : (outline (.start tokens)).2 = .error e) :
  ofTokens T tokens = .error [e]
  := by
  simp [ofTokens, h, Except.mapError, bind, Except.bind]

/-- A problem is put together from its name, that of its domain and its sections. -/
theorem ofTokens_of_ok {name domain : Token} {o : Outline} {c : Cursor}
    (h : (outline (.start tokens)).2 = .ok ((name, domain, o), c)) :
  ofTokens T tokens = (o.read (gate o) T).map (ofSections name.name domain.name o.available)
  := by
  simp only [ofTokens, h, Except.mapError, bind, Except.bind]
  cases o.read (gate o) T <;> rfl

theorem exists_of_ofTokens {p : Problem} (h : ofTokens T tokens = .ok p) :
  ∃ name domain o c ss, (outline (.start tokens)).2 = .ok ((name, domain, o), c) ∧
    o.read (gate o) T = .ok ss ∧ p = ofSections name.name domain.name o.available ss
  := by
  cases houtline : (outline (.start tokens)).2 with
  | error e =>
    rw [ofTokens_of_error houtline] at h
    contradiction
  | ok q =>
    obtain ⟨⟨name, domain, o⟩, c⟩ := q
    rw [ofTokens_of_ok houtline] at h
    cases hread : o.read (gate o) T with
    | error es => simp [hread, Except.map] at h
    | ok ss =>
      rw [hread] at h
      cases h
      exact ⟨name, domain, o, c, ss, rfl, hread, rfl⟩

/-- A problem has the error of its outline, or it has an outline and the errors of its sections. -/
theorem cases_of_ofTokens {es : List SyntaxError} (h : ofTokens T tokens = .error es) :
  (∃ e, (outline (.start tokens)).2 = .error e ∧ es = [e]) ∨
    ∃ name domain o c, (outline (.start tokens)).2 = .ok ((name, domain, o), c) ∧
      o.read (gate o) T = .error es
  := by
  cases houtline : (outline (.start tokens)).2 with
  | error e =>
    rw [ofTokens_of_error houtline] at h
    cases h
    exact .inl ⟨e, rfl, rfl⟩
  | ok p =>
    obtain ⟨⟨name, domain, o⟩, c⟩ := p
    rw [ofTokens_of_ok houtline] at h
    refine .inr ⟨name, domain, o, c, rfl, ?_⟩
    cases hread : o.read (gate o) T with
    | error es' =>
      rw [hread] at h
      cases h
      rfl
    | ok ss => simp [hread, Except.map] at h

end Problem

end PlanLang
