import PlanLang.Proofs.Section.Report
import PlanLang.Proofs.Written.Formula

/-!
# Sections as they are written

What a section declares is written behind its keyword as typed lists and formulas, up to the
parenthesis that closes the section.
-/

namespace PlanLang

/-! ### Formulas that may be missing -/

/-- The formula is written as the lexemes, or an empty list is in its place. -/
inductive Formula.WrittenOption : Option Formula → List Lexeme → List Event → Prop where
  | none :
    WrittenOption none [.opening, .closing] []
  | some {f : Formula} {ls : List Lexeme} {es : List Event} (h : f.Written ls es) :
    WrittenOption (some f) ls es

/-- The part of an action that `word` introduces is written as the lexemes, or it is left out. -/
inductive Formula.WrittenPart (word : String) (p : Part) :
    Option Formula → List Lexeme → List Event → Prop where
  | absent :
    WrittenPart word p none [] []
  | introduced {f : Option Formula} {ls : List Lexeme} {es : List Event}
    (h : WrittenOption f ls es) :
    WrittenPart word p f (.keyword word :: ls) (Event.within (.part p) es)

theorem Formula.WrittenOption.report {f : Option Formula} {ls : List Lexeme} {es : List Event}
    (h : WrittenOption f ls es) :
  ReportOption f es
  := by
  cases h with
  | none => exact .none
  | some h => exact .some h.report

theorem Formula.WrittenPart.report {word : String} {p : Part} {f : Option Formula}
    {ls : List Lexeme} {es : List Event} (h : WrittenPart word p f ls es) :
  PartReport p f es
  := by
  cases h with
  | absent => exact .absent
  | introduced h => exact .written h.report

/-! ### Declared predicates -/

/-- The declaration of a predicate as it is written: its name and its variables. -/
structure WrittenPredicate where
  name : String
  vars : WrittenList
deriving DecidableEq

namespace WrittenPredicate

/-- The predicate that is declared, with the type `T` for the variables that have none. -/
def atom (T : Option Ty) (p : WrittenPredicate) : Atom :=
  ⟨p.name.toLower, (p.vars.vars T).map .var⟩

/-- The lexemes of a declaration. -/
def lexemes (p : WrittenPredicate) : List Lexeme :=
  .opening :: .name p.name :: (p.vars.lexemes .var ++ [.closing])

/-- The events for a declaration. -/
def events (p : WrittenPredicate) : List Event :=
  Event.within (.part .predicate)
    (Event.within (.shape .atom)
      (.name .predicate p.name.toLower :: p.vars.events .variable .typedList))

theorem report {p : WrittenPredicate} (h : p.vars.IsProper) :
  (p.atom none).Report p.events
  := by
  have hatom : p.atom none
      = .ofName p.name.toLower (p.vars.typedList.toVariables.map .var) := by
    rw [atom, Atom.ofName, toLower_toLower, WrittenList.toVariables_typedList h.isWord]
  rw [hatom]
  exact .declared _ (WrittenList.report _ _ h.names_ne_nil)

theorem atom_withVariableDefault (T : Option Ty) (p : WrittenPredicate) :
  (p.atom none).withVariableDefault T = p.atom T
  := by
  rw [atom, atom, Atom.withVariableDefault, ← WrittenList.vars_withDefault T, List.map_map,
    List.map_map]
  rfl

end WrittenPredicate

/-! ### Sections -/

open Formula (Writing WrittenOption WrittenPart)

/-- What a section of the kind declares is written as the lexemes, and what is written is reported
by the events.  The name of an action is that of the token `name`, with which the action begins. -/
inductive Section.Written (name : Token) :
    SectionKind → Section → List Lexeme → List Event → Prop where
  | types {l : WrittenList} (hl : l.IsProper) :
    Written name .types (.types l.typedList.toDeclarations) (l.lexemes .name ++ [.closing])
      (Event.within (.part .types) (l.events .type (.part .subtypes)))
  | constants {l : WrittenList} (hl : l.IsProper) :
    Written name .constants (.constants (l.consts none)) (l.lexemes .name ++ [.closing])
      (Event.within (.part .constants) (l.events .constant .typedList))
  | predicates {ps : List WrittenPredicate} (hps : ∀ p ∈ ps, p.vars.IsProper) :
    Written name .predicates (.predicates (ps.map (WrittenPredicate.atom none)))
      (ps.flatMap WrittenPredicate.lexemes ++ [.closing]) (ps.flatMap WrittenPredicate.events)
  | action (hname : name.kind = .name) {l : WrittenList} (hl : l.IsProper) {f g : Option Formula}
    {ls ms : List Lexeme} {es es' : List Event}
    (hf : WrittenPart "precondition" .precondition f ls es)
    (hg : WrittenPart "effect" .effect g ms es') :
    Written name .action (.action ⟨name.name, name.position, l.vars none, f, g⟩)
      (name.lexeme :: .keyword "parameters" :: .opening ::
        ((l.lexemes .var ++ [.closing]) ++ (ls ++ (ms ++ [.closing]))))
      (Event.within (.part .parameters) (l.events .variable .typedList) ++ (es ++ es'))
  | objects {l : WrittenList} (hl : l.IsProper) :
    Written name .objects (.objects (l.consts none)) (l.lexemes .name ++ [.closing])
      (Event.within (.part .objects) (l.events .constant .typedList))
  | init {ws : List Writing} (hws : ∀ w ∈ ws, w.formula.Written w.lexemes w.events) :
    Written name .init (.init (ws.map Writing.formula)) (ws.flatMap Writing.lexemes ++ [.closing])
      (ws.flatMap fun w => Event.within (.part .initLiteral) w.events)
  | goal {f : Option Formula} {ls : List Lexeme} {es : List Event} (h : WrittenOption f ls es) :
    Written name .goal (.goal f) (ls ++ [.closing]) (Event.within (.part .goal) es)

/-- Items that are reported one by one are reported one after the other. -/
theorem reportEach_map {ι α : Type} {R : α → List Event → Prop} {value : ι → α}
    {events : ι → List Event} {items : List ι} (h : ∀ x ∈ items, R (value x) (events x)) :
  ReportEach R (items.map value) (items.flatMap events)
  := by
  induction items with
  | nil => exact .nil
  | cons x items ih =>
    rw [List.forall_mem_cons] at h
    exact .cons h.1 (ih h.2)

/-- What is written in a section is reported. -/
theorem Section.Written.report {name : Token} {k : SectionKind} {s : Section} {ls : List Lexeme}
    {es : List Event} (h : Written name k s ls es) :
  Report name k s es
  := by
  cases h with
  | types hl => exact .types (WrittenList.report _ _ hl.names_ne_nil)
  | @constants l hl =>
    rw [← WrittenList.toConstants_typedList]
    exact .constants (WrittenList.report _ _ hl.names_ne_nil)
  | predicates hps =>
    exact .predicates (reportEach_map fun p hp => WrittenPredicate.report (hps p hp))
  | action _ hl hf hg =>
    rw [← WrittenList.toVariables_typedList hl.isWord]
    exact .action (WrittenList.report _ _ hl.names_ne_nil) hf.report hg.report
  | @objects l hl =>
    rw [← WrittenList.toConstants_typedList]
    exact .objects (WrittenList.report _ _ hl.names_ne_nil)
  | init hws => exact .init (reportEach_map fun w hw => .literal (hws w hw).report)
  | goal h => exact .goal h.report

/-! ### The canonical form -/

namespace Formula

variable {q : String → Bool}

/-- The lexemes of a formula, or of an empty list in place of one. -/
def lexemesOption : Option Formula → List Lexeme
  | none => [.opening, .closing]
  | some f => f.lexemes

/-- A formula whose names are words in lower case is written in its canonical form, if there is
one. -/
theorem exists_writtenOption {f : Option Formula} (h : ∀ g ∈ f, g.isRegular isLowerWord q) :
  ∃ es, WrittenOption f (lexemesOption f) es
  := by
  cases f with
  | none => exact ⟨_, .none⟩
  | some g => exact ⟨_, .some (written_of_isRegular (h g rfl))⟩

/-- Literals whose names are words in lower case are written in their canonical form. -/
theorem exists_written_init {fs : List Formula} (h : areRegular isLowerWord q fs) (name : Token) :
  ∃ es, Section.Written name .init (.init fs) (lexemesAll fs ++ [.closing]) es
  := by
  have hws : ∀ w ∈ fs.map writing, Written w.formula w.lexemes w.events := by
    rw [List.forall_mem_map]
    exact written_of_areRegular h
  have hinit : Section.Written name .init _ _ _ := .init hws
  rw [List.map_map, List.flatMap_map] at hinit
  rw [lexemesAll_eq]
  exact ⟨_, by simpa [Function.comp_def, writing] using hinit⟩

/-- A goal whose names are words in lower case is written in its canonical form. -/
theorem exists_written_goal {f : Formula} (h : f.isRegular isLowerWord q) (name : Token) :
  ∃ es, Section.Written name .goal (.goal (some f)) (f.lexemes ++ [.closing]) es
  := ⟨_, .goal (.some (written_of_isRegular h))⟩

end Formula

end PlanLang
