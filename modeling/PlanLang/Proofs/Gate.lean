import Mathlib
import PlanLang.Proofs.Reader.Dash
import PlanLang.Proofs.Section.Value
import PlanLang.Token.Lexer

/-!
# Constructs that are held back

A gate holds back the constructs whose requirements are not declared.  It does nothing else: a
section is read as if there were no gate, or reading it fails because a requirement is missing.
Which requirements have to be declared is seen from what the section declares.
-/

namespace PlanLang

/-! ### The requirements that are ever needed -/

/-- The requirements that hold back constructs. -/
def Requirement.gated : Finset Requirement :=
  {.typing, .equality, .universalPreconditions, .conditionalEffects}

theorem typingIf_subset (typed : Bool) :
  typingIf typed ⊆ Requirement.gated
  := by
  cases typed <;> decide

namespace Formula

theorem Place.universal_mem (place : Place) :
  place.universal ∈ Requirement.gated
  := by
  cases place <;> decide

mutual

/-- A formula needs nothing but requirements that hold back constructs. -/
theorem needs_subset (place : Place) :
  ∀ f : Formula, f.needs place ⊆ Requirement.gated
  | .atom _ => by
      rw [needs]
      apply Finset.empty_subset
  | .negation f => by
      rw [needs]
      apply needs_subset place f
  | .conjunction fs => by
      rw [needs]
      apply needsAll_subset place fs
  | .equality _ _ => by
      rw [needs]
      decide
  | .universal vs f => by
      rw [needs, Finset.insert_subset_iff]
      exact ⟨place.universal_mem, Finset.union_subset (typingIf_subset _) (needs_subset place f)⟩
  | .conditional c e => by
      rw [needs, Finset.insert_subset_iff]
      exact ⟨by decide, Finset.union_subset (needs_subset .goal c) (needs_subset .effect e)⟩

theorem needsAll_subset (place : Place) :
  ∀ fs : List Formula, needsAll place fs ⊆ Requirement.gated
  | [] => by
      rw [needsAll]
      apply Finset.empty_subset
  | f :: fs => by
      rw [needsAll]
      exact Finset.union_subset (needs_subset place f) (needsAll_subset place fs)

end

theorem needsOption_subset (place : Place) (f : Option Formula) :
  needsOption place f ⊆ Requirement.gated
  := by
  cases f with
  | none => apply Finset.empty_subset
  | some f => apply needs_subset

end Formula

theorem Section.needs_subset (s : Section) (annotated : Bool) :
  s.needs annotated ⊆ Requirement.gated
  := by
  cases s with
  | action a =>
    apply Finset.union_subset (typingIf_subset _)
    apply Finset.union_subset (Formula.needsOption_subset _ _) (Formula.needsOption_subset _ _)
  | init fs => apply Formula.needsAll_subset
  | goal f => apply Formula.needsOption_subset
  | _ => apply typingIf_subset

/-- A requirement that holds back constructs is available only where it is declared. -/
theorem Gate.allows_declared_iff {R : Requirements} {r : Requirement} (h : r ∈ Requirement.gated) :
  (declared R).allows r ↔ r ∈ R.toList
  := by
  have hstrips : r ≠ .strips := by
    rintro rfl
    contradiction
  simp [allows, Requirements.has, hstrips]

namespace SectionKind

/-! ### What a section needs -/

theorem marks_types :
  types.reader.Marks
  := by
  have htypes : (Reader.within (.part .types)
      (Reader.typedList .name .type (.part .subtypes))).Marks := by
    intro c
    apply Reader.MarksAt.within
    apply Reader.marks_typedList (by decide)
  apply htypes.bind fun _ => Reader.marks_pure _

/-- What is noted as needed while a section is read is what the section needs.  For declared types
it is the dashes among the tokens that tell whether a parent is written. -/
theorem needs_of_read {k : SectionKind} {gate : Gate} {tokens : List Token} {s : Section}
    {c : Cursor} (h : k.read gate none tokens = .ok (s, c)) :
  Step.needs (k.reader.steps (.start tokens))
    = s.needs ((c.passed tokens).any (·.kind = .dash))
  := by
  obtain ⟨name, annotated, hreader, -, -, hreport, hneeds⟩ := report_of_read h
  generalize Step.events _ = es at hreport
  cases hreport with
  | types =>
    obtain ⟨ts, hts, hcount⟩ := marks_types (.start tokens) _ _ hreader
    have hany : annotated = ts.any (·.kind = .dash) := by
      rw [Bool.eq_iff_iff, List.any_eq_true, ← List.countP_pos_iff]
      have htyping : .typing ∈ Step.needs (types.reader.steps (.start tokens)) ↔ annotated := by
        rw [hneeds, Section.needs]
        cases annotated <;> decide
      rw [← htyping, Step.typing_mem_needs]
      rw [Token.dashes] at hcount
      omega
    have hpassed : c.passed tokens = ts := Cursor.passed_eq hts
    rw [hpassed, hneeds, hany]
  | _ => exact hneeds

/-- The gate of declared requirements allows what a section needs if and only if all of it is
declared. -/
theorem check_declared_iff {k : SectionKind} {gate : Gate} {tokens : List Token} {s : Section}
    {c : Cursor} (h : k.read gate none tokens = .ok (s, c)) (R : Requirements) :
  (Gate.declared R).check (k.reader (.start tokens)).1 = .ok () ↔
    ∀ r ∈ s.needs ((c.passed tokens).any (·.kind = .dash)), r ∈ R.toList
  := by
  rw [Gate.check_ok_iff, ← needs_of_read h]
  apply forall₂_congr
  intro r hr
  apply Gate.allows_declared_iff
  apply s.needs_subset ((c.passed tokens).any (·.kind = .dash))
  rwa [← needs_of_read h]

/-- A section that is read through the gate of declared requirements is one that is read without a
gate and needs only what is declared. -/
theorem read_declared_iff {k : SectionKind} {R : Requirements} {T : Option Ty}
    {tokens : List Token} {s' : Section} {c : Cursor} :
  k.read (.declared R) T tokens = .ok (s', c) ↔
    ∃ s, s' = s.withDefault T ∧ k.read .unlimited none tokens = .ok (s, c) ∧
      ∀ r ∈ s.needs ((c.passed tokens).any (·.kind = .dash)), r ∈ R.toList
  := by
  rw [read_eq k (.declared R) T]
  cases hread : k.read .unlimited none tokens with
  | error e =>
    cases (Gate.declared R).check (k.reader (.start tokens)).1 <;> simp [Except.bind, Except.map]
  | ok p =>
    obtain ⟨s, c'⟩ := p
    have hcheck := check_declared_iff hread R
    cases hdeclared : (Gate.declared R).check (k.reader (.start tokens)).1 with
    | error e =>
      rw [hdeclared] at hcheck
      simp only [Except.bind, reduceCtorEq, false_iff]
      rintro ⟨_, -, heq, hneeds⟩
      cases heq
      have := hcheck.mpr hneeds
      contradiction
    | ok u =>
      have hneeds := hcheck.mp hdeclared
      constructor
      · intro h
        cases h
        exact ⟨s, rfl, rfl, hneeds⟩
      · rintro ⟨_, rfl, heq, -⟩
        cases heq
        rfl

/-- Reading a section through the gate of declared requirements fails because a requirement that is
not declared is missing, or comes to what it comes to without a gate.  It succeeds if and only if
it does so without a gate and all that the section needs is declared: the requirement for types if
some item has one, and those of the equalities, universal formulas and conditionals.  So declaring
more requirements keeps what is read. -/
theorem read_declared (k : SectionKind) (R : Requirements) (T : Option Ty) (tokens : List Token) :
  ((∃ r p what, r ∉ R.toList ∧
      k.read (.declared R) T tokens = .error ⟨p, .missingRequirement r what⟩) ∨
    k.read (.declared R) T tokens = k.read .unlimited T tokens) ∧
  (∀ s c, k.read (.declared R) none tokens = .ok (s, c) ↔
    k.read .unlimited none tokens = .ok (s, c) ∧
      ∀ r ∈ s.needs ((c.passed tokens).any (·.kind = .dash)), r ∈ R.toList) ∧
  (∀ R' : Requirements, R.toList ⊆ R'.toList → ∀ s c,
    k.read (.declared R) T tokens = .ok (s, c) → k.read (.declared R') T tokens = .ok (s, c))
  := by
  refine ⟨?_, ?_, ?_⟩
  · rw [read_eq k (.declared R) T, read_eq k .unlimited T, Gate.check_unlimited]
    cases hcheck : (Gate.declared R).check (k.reader (.start tokens)).1 with
    | error e =>
      obtain ⟨r, what, hkind, hallows, -⟩ := Gate.exists_of_check_error hcheck
      have hr : r ∉ R.toList := by
        intro hmem
        simp [Gate.allows, Requirements.has, hmem] at hallows
      obtain ⟨p, kind⟩ := e
      obtain rfl : kind = .missingRequirement r what := hkind
      exact .inl ⟨r, p, what, hr, rfl⟩
    | ok u => exact .inr rfl
  · intro s c
    rw [read_declared_iff]
    simp [Section.withDefault_none]
  · intro R' hsubset s c h
    rw [read_declared_iff] at h ⊢
    obtain ⟨s, rfl, hread, hneeds⟩ := h
    exact ⟨s, rfl, hread, fun r hr => hsubset (hneeds r hr)⟩

/-- A goal that needs three requirements, where just these are declared and where `:adl` is. -/
theorem read_declared_adl :
  let R : Requirements := [.typing, .equality, .universalPreconditions].foldl .declare .empty
  let R' : Requirements := .declare .empty .adl
  let tokens := tokenize "(forall (?x - block) (not (= ?x a))))"
  let f : Formula := .universal [⟨"x", some (.primitive "block")⟩]
    (.negation (.equality (.var ⟨"x", none⟩) (.const ⟨"a", none⟩)))
  R.toList ⊆ R'.toList ∧
    goal.read (.declared R) none tokens = .ok (.goal f, ⟨[], ⟨1, 37⟩⟩) ∧
    goal.read (.declared R') none tokens = .ok (.goal f, ⟨[], ⟨1, 37⟩⟩)
  := by
  have hsubset : ([.typing, .equality, .universalPreconditions].foldl .declare .empty
      : Requirements).toList ⊆ (Requirements.declare .empty .adl).toList := by
    decide +kernel
  have hread : goal.read
      (.declared ([.typing, .equality, .universalPreconditions].foldl .declare .empty)) none
      (tokenize "(forall (?x - block) (not (= ?x a))))")
        = .ok (.goal (some (.universal [⟨"x", some (.primitive "block")⟩]
          (.negation (.equality (.var ⟨"x", none⟩) (.const ⟨"a", none⟩))))), ⟨[], ⟨1, 37⟩⟩) := by
    cbv
  exact ⟨hsubset, hread, (read_declared .goal _ none _).2.2 _ hsubset _ _ hread⟩

end SectionKind

end PlanLang
