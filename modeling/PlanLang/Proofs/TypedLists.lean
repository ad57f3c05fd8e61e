import Mathlib
import PlanLang.Proofs.Reading.Description

/-!
# The items of typed lists

Wherever a typed list is written, its items are declared in the order in which they are written,
each with the type of its own group.  The items that are in no group have the default type, if there
is one.
-/

namespace PlanLang

open Formula (Written WrittenPart)

/-- Where types are available, so is what a list of items needs. -/
theorem Gate.allows_of_mem_typingIf {gate : Gate} (h : gate.allows .typing) {typed : Bool} :
  ∀ r ∈ typingIf typed, gate.allows r
  := by
  intro r hr
  cases typed with
  | false => simp [typingIf] at hr
  | true =>
    obtain rfl : r = .typing := by simpa [typingIf] using hr
    exact h

namespace SectionKind

/-- A section of the kind that is written as the lexemes, up to the parenthesis that closes it, is
read as the section.  If it is an action, then it begins with the token `name`. -/
def IsReadAs (k : SectionKind) (gate : Gate) (T : Option Ty) (name : Token) (ls : List Lexeme)
    (s : Section) : Prop :=
  ∀ (tokens : List Token) (rest : List Lexeme), (k = .action → name ∈ tokens.head?) →
    tokens.map Token.lexeme = ls ++ .closing :: rest →
    ∃ c, k.read gate T tokens = .ok (s, c) ∧ c.lexemes = rest

variable {T : Option Ty} {gate : Gate} {name : Token} {l : WrittenList}

theorem isReadAs_of_written {k : SectionKind} {s : Section} {ls : List Lexeme} {es : List Event}
    (h : s.Written name k (ls ++ [.closing]) es) (hs : s.hasGrammar)
    (hneeds : ∀ r ∈ s.needs true, gate.allows r) :
  k.IsReadAs gate T name ls (s.withDefault T)
  := by
  intro tokens rest hname htokens
  rw [List.append_cons] at htokens
  exact read_of_allowed h hs hneeds T htokens hname

section

variable (htyping : gate.allows .typing)
include htyping

theorem isReadAs_constants (hl : l.IsProper) :
  constants.IsReadAs gate T name (l.lexemes .name) (.constants (l.consts T))
  := by
  rw [← WrittenList.consts_withDefault]
  exact isReadAs_of_written (.constants hl) rfl (Gate.allows_of_mem_typingIf htyping)

theorem isReadAs_objects (hl : l.IsProper) :
  objects.IsReadAs gate T name (l.lexemes .name) (.objects (l.consts T))
  := by
  rw [← WrittenList.consts_withDefault]
  exact isReadAs_of_written (.objects hl) rfl (Gate.allows_of_mem_typingIf htyping)

theorem isReadAs_predicates {ps : List WrittenPredicate} (hps : ∀ p ∈ ps, p.vars.IsProper) :
  predicates.IsReadAs gate T name (ps.flatMap WrittenPredicate.lexemes)
    (.predicates (ps.map (WrittenPredicate.atom T)))
  := by
  have hatom : ps.map (WrittenPredicate.atom T)
      = (ps.map (WrittenPredicate.atom none)).map (Atom.withVariableDefault T) := by
    rw [List.map_map]
    apply List.map_congr_left
    intro p _
    exact (p.atom_withVariableDefault T).symm
  rw [hatom]
  exact isReadAs_of_written (.predicates hps) rfl (Gate.allows_of_mem_typingIf htyping)

/-- The parameters of an action are those of their typed list, whatever its precondition and its
effect are. -/
theorem isReadAs_action (hname : name.kind = .name) (hl : l.IsProper) {f g : Option Formula}
    {ls ms : List Lexeme} {es es' : List Event}
    (hf : WrittenPart "precondition" .precondition f ls es)
    (hg : WrittenPart "effect" .effect g ms es')
    (hgoal : ∀ h ∈ f, h.isGoal ∧ ∀ r ∈ h.needs .goal, gate.allows r)
    (heffect : ∀ h ∈ g, h.isEffect ∧ ∀ r ∈ h.needs .effect, gate.allows r) :
  action.IsReadAs gate T name
    (name.lexeme :: .keyword "parameters" :: .opening ::
      (l.lexemes .var ++ .closing :: (ls ++ ms)))
    (.action ⟨name.name, name.position, l.vars T, f.map (Formula.withDefault T),
      g.map (Formula.withDefault T)⟩)
  := by
  have hwritten := Section.Written.action hname hl hf hg
  have hgrammar : (Section.action ⟨name.name, name.position, l.vars none, f, g⟩).hasGrammar := by
    rw [Section.hasGrammar, Bool.and_eq_true, Option.all_eq_true, Option.all_eq_true]
    exact ⟨fun h hh => (hgoal h hh).1, fun h hh => (heffect h hh).1⟩
  have hneeds : ∀ r ∈ (Section.action ⟨name.name, name.position, l.vars none, f, g⟩).needs true,
      gate.allows r := by
    intro r hr
    rw [Section.needs, Finset.mem_union, Finset.mem_union] at hr
    rcases hr with hr | hr | hr
    · exact Gate.allows_of_mem_typingIf htyping r hr
    · cases f with
      | none => simp [Formula.needsOption] at hr
      | some f => exact (hgoal f rfl).2 r hr
    · cases g with
      | none => simp [Formula.needsOption] at hr
      | some g => exact (heffect g rfl).2 r hr
  have hlexemes : name.lexeme :: .keyword "parameters" :: .opening ::
      ((l.lexemes .var ++ [.closing]) ++ (ls ++ (ms ++ [.closing])))
      = name.lexeme :: .keyword "parameters" :: .opening ::
        (l.lexemes .var ++ .closing :: (ls ++ ms)) ++ [.closing] := by
    simp
  rw [hlexemes] at hwritten
  rw [← WrittenList.vars_withDefault]
  exact isReadAs_of_written hwritten hgrammar hneeds

end

theorem isReadAs_goal {f : Formula} {ls : List Lexeme} {es : List Event} (hf : f.Written ls es)
    (hgoal : f.isGoal) (hneeds : ∀ r ∈ f.needs .goal, gate.allows r) :
  goal.IsReadAs gate T name ls (.goal (some (f.withDefault T)))
  := isReadAs_of_written (.goal (.some hf)) hgoal hneeds

end SectionKind

/-- The variables that are bound behind `forall` are those of their typed list. -/
theorem Formula.universal_withDefault (T : Option Ty) (l : WrittenList) (f : Formula) :
  (universal (l.vars none) f).withDefault T = universal (l.vars T) (f.withDefault T)
  := by
  rw [withDefault, WrittenList.vars_withDefault]

/-- The type of a group is the set of its names in lower case.  In declared constants and objects,
in declared predicates, in the parameters of an action and behind `forall`, the items of a typed
list have the types of their groups, and the default type, if there is one, where they are in no
group.  So a domain and a problem declare what is written in their sections. -/
theorem typedList_items (T : Option Ty) {gate : Gate} (htyping : gate.allows .typing)
    (name : Token) :
  (∀ (t : WrittenType) (m : String), m ∈ t.ty.names ↔ ∃ n ∈ t.names, m = n.toLower) ∧
  (∀ l : WrittenList, l.IsProper →
    SectionKind.constants.IsReadAs gate T name (l.lexemes .name) (.constants (l.consts T)) ∧
      SectionKind.objects.IsReadAs gate T name (l.lexemes .name) (.objects (l.consts T))) ∧
  (∀ ps : List WrittenPredicate, (∀ p ∈ ps, p.vars.IsProper) →
    SectionKind.predicates.IsReadAs gate T name (ps.flatMap WrittenPredicate.lexemes)
      (.predicates (ps.map fun p => ⟨p.name.toLower, (p.vars.vars T).map .var⟩))) ∧
  (∀ (l : WrittenList) (f g : Option Formula) (ls ms : List Lexeme) (es es' : List Event),
    name.kind = .name → l.IsProper →
    WrittenPart "precondition" .precondition f ls es → WrittenPart "effect" .effect g ms es' →
    (∀ h ∈ f, h.isGoal ∧ ∀ r ∈ h.needs .goal, gate.allows r) →
    (∀ h ∈ g, h.isEffect ∧ ∀ r ∈ h.needs .effect, gate.allows r) →
    SectionKind.action.IsReadAs gate T name
      (name.lexeme :: .keyword "parameters" :: .opening ::
        (l.lexemes .var ++ .closing :: (ls ++ ms)))
      (.action ⟨name.name, name.position, l.vars T, f.map (Formula.withDefault T),
        g.map (Formula.withDefault T)⟩)) ∧
  (∀ (f : Formula) (ls : List Lexeme) (es : List Event), f.Written ls es → f.isGoal →
    (∀ r ∈ f.needs .goal, gate.allows r) →
    SectionKind.goal.IsReadAs gate T name ls (.goal (some (f.withDefault T)))) ∧
  (∀ (l : WrittenList) (f : Formula) (ls : List Lexeme) (es : List Event), l.IsProper →
    f.Written ls es →
    (∃ es', (Formula.universal (l.vars none) f).Written
      (.opening :: .name "forall" :: .opening ::
        (l.lexemes .var ++ .closing :: (ls ++ [.closing]))) es') ∧
      (Formula.universal (l.vars none) f).withDefault T
        = .universal (l.vars T) (f.withDefault T)) ∧
  (∀ (source : String) (name : Token) (bs : List Outline.Block) (ss : List Section),
    Domain.IsWritten (tokenize source) name bs → Outline.AreDeclared bs ss →
    (∀ s ∈ ss, ∀ r ∈ s.needs true,
      (Gate.declared ((Outline.declared bs).getD .empty)).allows r) →
    Domain.parse T source = .ok (.ofSections name.name ((Outline.declared bs).getD .empty)
      (ss.map (Section.withDefault T)))) ∧
  ∀ (source : String) (name domain : Token) (bs : List Outline.Block) (ss : List Section),
    Problem.IsWritten (tokenize source) name domain bs → Outline.AreDeclared bs ss →
    (∀ R ∈ Outline.declared bs, ∀ s ∈ ss, ∀ r ∈ s.needs true, (Gate.declared R).allows r) →
    Problem.parse T source = .ok (.ofSections name.name domain.name
      ((Outline.declared bs).getD .empty) (ss.map (Section.withDefault T)))
  := by
  refine ⟨WrittenType.mem_names_ty, ?_, ?_, ?_, ?_, ?_, ?_, ?_⟩
  · intro l hl
    exact ⟨SectionKind.isReadAs_constants htyping hl, SectionKind.isReadAs_objects htyping hl⟩
  · intro ps hps
    exact SectionKind.isReadAs_predicates htyping hps
  · intro l f g ls ms es es' hname hl hf hg hgoal heffect
    exact SectionKind.isReadAs_action htyping hname hl hf hg hgoal heffect
  · intro f ls es hf hgoal hneeds
    exact SectionKind.isReadAs_goal hf hgoal hneeds
  · intro l f ls es hl hf
    exact ⟨⟨_, .universal hl hf⟩, Formula.universal_withDefault T l f⟩
  · intro source name bs ss hwritten hdeclared hneeds
    exact Domain.ofTokens_of_isWritten hwritten hdeclared hneeds
  · intro source name domain bs ss hwritten hdeclared hneeds
    exact Problem.ofTokens_of_isWritten hwritten hdeclared hneeds

/-- Constants in two groups, one with a type of two names, and one constant behind them. -/
theorem typedList_items_mixed :
  let gate : Gate := .declared (.declare .empty .typing)
  let st : Ty := (Ty.primitive "s").insert "t"
  let tokens := tokenize "a B a - (either T s t) c B - u d) ("
  gate.allows .typing ∧
    ∃ c, SectionKind.constants.read gate (some (.primitive "v")) tokens = .ok (.constants
        [⟨"a", some st⟩, ⟨"b", some st⟩, ⟨"a", some st⟩, ⟨"c", some (.primitive "u")⟩,
          ⟨"b", some (.primitive "u")⟩, ⟨"d", some (.primitive "v")⟩], c) ∧
      c.lexemes = [.opening]
  := by
  intro gate st tokens
  have htyping : gate.allows .typing := by decide +kernel
  let l : WrittenList :=
    ⟨[(["a", "B", "a"], .either "T" ["s", "t"]), (["c", "B"], .primitive "u")], ["d"]⟩
  have hl : l.IsProper := by
    constructor <;> decide +kernel
  have htokens : tokens.map Token.lexeme = l.lexemes .name ++ .closing :: [.opening] := by
    unfold tokens l
    cbv
  have hitems : l.consts (some (.primitive "v")) =
      [⟨"a", some st⟩, ⟨"b", some st⟩, ⟨"a", some st⟩, ⟨"c", some (.primitive "u")⟩,
        ⟨"b", some (.primitive "u")⟩, ⟨"d", some (.primitive "v")⟩] := by
    unfold l st
    cbv
  have hkind : SectionKind.constants ≠ .action := by decide
  have hread := ((typedList_items (some (.primitive "v")) htyping ⟨.name, "", 0, .start⟩).2.1 l
    hl).1 tokens [.opening] (absurd · hkind) htokens
  rw [hitems] at hread
  exact ⟨htyping, hread⟩

end PlanLang
