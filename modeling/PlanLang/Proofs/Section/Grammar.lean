import PlanLang.Proofs.Confinement.Section
import PlanLang.Proofs.Formula.Spelling
import PlanLang.Proofs.Report.Names
import PlanLang.Proofs.Token.Word

/-!
# Sections of the grammar

The formulas that a section declares are goals, effects and literals where these belong.  Its names
are words in lower case, and what it lists can be written as typed lists.
-/

namespace PlanLang

/-! ### What is declared -/

/-- The atom declares a predicate: its terms are variables that can be written as a typed list, and
all names are words in lower case. -/
structure Atom.IsDeclaration (a : Atom) : Prop where
  name : isLowerWord a.name
  terms : ∃ vs : List Variable, a.terms = vs.map .var ∧
    Variable.areListed isLowerWord isLowerWord vs

/-- The precondition of the action is a goal and its effect an effect, if it has them, and all names
are words in lower case. -/
structure Action.IsGrammatical (a : Action) : Prop where
  name : isLowerWord a.name
  parameters : Variable.areListed isLowerWord isLowerWord a.parameters
  precondition : ∀ f ∈ a.precondition, f.isGoal ∧ f.isRegular isLowerWord isLowerWord
  effect : ∀ f ∈ a.effect, f.isEffect ∧ f.isRegular isLowerWord isLowerWord

namespace Section

/-- What the section declares is of the grammar. -/
def IsGrammatical : Section → Prop
  | types ds => ds.all (TypeDeclaration.isNamed isLowerWord)
  | constants cs => Constant.areListed isLowerWord isLowerWord cs
  | predicates as => ∀ a ∈ as, a.IsDeclaration
  | action a => a.IsGrammatical
  | objects cs => Constant.areListed isLowerWord isLowerWord cs
  | init fs => ∀ f ∈ fs, f.isInitLiteral ∧ f.isRegular isLowerWord isLowerWord
  | goal f => ∀ g ∈ f, g.isGoal ∧ g.isRegular isLowerWord isLowerWord

/-- The kind of a section. -/
def kind : Section → SectionKind
  | types _ => .types
  | constants _ => .constants
  | predicates _ => .predicates
  | action _ => .action
  | objects _ => .objects
  | init _ => .init
  | goal _ => .goal

end Section

/-! ### Reports -/

variable {p : String → Bool}

/-- What follows from the report of an item holds of all items that are reported one after the
other. -/
theorem ReportEach.forall_mem {α : Type} {R : α → List Event → Prop} {P : α → Prop}
    (hP : ∀ a es, R a es → es.all (Event.isNamed p) → P a) {as : List α} {es : List Event}
    (h : ReportEach R as es) (hes : es.all (Event.isNamed p)) :
  ∀ a ∈ as, P a
  := by
  induction h with
  | nil => exact nofun
  | cons h _ ih =>
    rw [List.all_append, Bool.and_eq_true] at hes
    rw [List.forall_mem_cons]
    exact ⟨hP _ _ h hes.1, ih hes.2⟩

theorem Atom.Report.isDeclaration {a : Atom} {es : List Event} (h : a.Report es)
    (hes : es.all (Event.isNamed isLowerWord)) :
  a.IsDeclaration
  := by
  obtain ⟨name, hl⟩ := h
  rw [Event.all_isNamed_within, Event.all_isNamed_within, List.all_cons, Bool.and_eq_true] at hes
  have hp : ∀ n, isLowerWord n → isStoredName n := fun _ => isStoredName_of_isLowerWord
  constructor
  · rw [Atom.ofName, toLower_of_isLowerWord hes.1]
    exact hes.1
  · exact ⟨_, rfl, TypedList.areListed_toVariables hp (hl.isNamed hp hes.2)⟩

theorem Formula.PartReport.isRegular (hp : ∀ n, p n → isStoredName n) {part : Part}
    {f : Option Formula} {es : List Event} (h : Formula.PartReport part f es)
    (hes : es.all (Event.isNamed p)) :
  ∀ g ∈ f, g.isRegular p p
  := by
  cases h with
  | absent => exact nofun
  | written h =>
    rw [Event.all_isNamed_within] at hes
    apply h.isRegular hp hes

namespace Section.Report

variable {name : Token} {k : SectionKind} {s : Section} {es : List Event}

theorem kind_eq (h : Section.Report name k s es) :
  s.kind = k
  := by
  cases h <;> rfl

/-- A section that is reported with words in lower case is of the grammar. -/
theorem isGrammatical (h : Section.Report name k s es) (hs : s.hasGrammar)
    (hes : es.all (Event.isNamed isLowerWord)) (hname : k = .action → isLowerWord name.name) :
  s.IsGrammatical
  := by
  have hp : ∀ n, isLowerWord n → isStoredName n := fun _ => isStoredName_of_isLowerWord
  cases h with
  | types h =>
    rw [Event.all_isNamed_within] at hes
    exact TypedList.all_toDeclarations hp (by decide +kernel) (h.isNamed hp hes)
  | constants h =>
    rw [Event.all_isNamed_within] at hes
    exact TypedList.areListed_toConstants hp (h.isNamed hp hes)
  | predicates h => exact h.forall_mem (fun _ _ ha => ha.isDeclaration) hes
  | action hl hf hg =>
    rw [List.all_append, List.all_append, Event.all_isNamed_within, Bool.and_eq_true,
      Bool.and_eq_true] at hes
    rw [hasGrammar, Bool.and_eq_true, Option.all_eq_true, Option.all_eq_true] at hs
    constructor
    · exact hname rfl
    · exact TypedList.areListed_toVariables hp (hl.isNamed hp hes.1)
    · intro f hmem
      exact ⟨hs.1 f hmem, hf.isRegular hp hes.2.1 f hmem⟩
    · intro f hmem
      exact ⟨hs.2 f hmem, hg.isRegular hp hes.2.2 f hmem⟩
  | objects h =>
    rw [Event.all_isNamed_within] at hes
    exact TypedList.areListed_toConstants hp (h.isNamed hp hes)
  | init h =>
    have hliteral : ∀ f es, Formula.InitReport f es → es.all (Event.isNamed isLowerWord) →
        f.isRegular isLowerWord isLowerWord := by
      rintro f es ⟨hf⟩ hes
      rw [Event.all_isNamed_within] at hes
      apply hf.isRegular hp hes
    intro f hmem
    exact ⟨List.all_eq_true.mp hs f hmem, h.forall_mem hliteral hes f hmem⟩
  | goal h =>
    rw [Event.all_isNamed_within] at hes
    rw [hasGrammar, Option.all_eq_true] at hs
    intro g hmem
    exact ⟨hs g hmem, h.isRegular hp hes g hmem⟩

end Section.Report

/-! ### Sections among tokens -/

/-- If the tokens up to the parenthesis that closes a section stand for words in lower case, then
what is read of the section is of the grammar. -/
theorem SectionKind.isGrammatical_of_read {k : SectionKind} {gate : Gate} {own rest : List Token}
    (hown : closes 1 own)
    (hwords : ∀ t ∈ own, t.kind = .name ∨ t.kind = .var → isLowerWord t.name)
    {s : Section} {c : Cursor} (h : k.read gate none (own ++ rest) = .ok (s, c)) :
  s.IsGrammatical ∧ s.kind = k
  := by
  rw [read_append k gate none hown] at h
  cases hread : k.read gate none own with
  | error e => simp [hread, Except.map] at h
  | ok p =>
    obtain ⟨rfl, -⟩ : p.1 = s ∧ p.2.append rest = c := by simpa [hread, Except.map] using h
    obtain ⟨name, _, -, hname, hs, hreport, -⟩ := report_of_read (s := p.1) (c := p.2) hread
    refine ⟨hreport.isGrammatical hs ?_ ?_, hreport.kind_eq⟩
    · rw [List.all_eq_true]
      intro e he
      obtain ⟨_, hstep, he⟩ := List.mem_filterMap.mp he
      obtain ⟨⟨position, step⟩, hmem, rfl⟩ := List.mem_map.mp hstep
      have hat := (k.confinedAt_reader hown).steps _ hmem
      cases step with
      | need r what => contradiction
      | event e' =>
        obtain rfl := Option.some.inj he
        cases e' with
        | enter => rfl
        | leave => rfl
        | name r text =>
          obtain ⟨t, ht, hkind, rfl⟩ := hat
          apply hwords t ht hkind
    · intro hk
      obtain ⟨hhead, hkind⟩ := hname hk
      apply hwords name (List.mem_of_mem_head? hhead) (.inl hkind)

end PlanLang
