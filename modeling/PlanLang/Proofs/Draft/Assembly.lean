import Mathlib.Data.List.TakeWhile
import PlanLang.Draft
import PlanLang.Proofs.Builder.Assembly

/-!
# Drafting reported parts

A draft whose builder is empty notes what the report of a part of a description declares.  Its
builder is empty again afterwards, so that the next part can follow.
-/

namespace PlanLang

/-! ### Events that only concern the builder -/

/-- The event is not the leaving of a part of a description. -/
def Event.isInner : Event → Bool
  | .leave (.part _) => false
  | _ => true

theorem Event.all_isInner_names (r : Role) (names : List String) :
  (names.map (.name r)).all isInner
  := by
  simp [isInner]

theorem Event.all_isInner_shape (s : Shape) {es : List Event} (h : es.all isInner) :
  (within (.shape s) es).all isInner
  := by
  simpa [within, isInner] using h

theorem Event.all_isInner_append {es es' : List Event} (h : es.all isInner)
    (h' : es'.all isInner) :
  (es ++ es').all isInner
  := by
  rw [List.all_append, h, h', Bool.and_self]

theorem Ty.Report.all_isInner {t : Ty} {es : List Event} (h : t.Report es) :
  es.all Event.isInner
  := by
  cases h with
  | primitive name => rfl
  | either h => exact Event.all_isInner_shape _ (Event.all_isInner_names _ _)

theorem TypedList.Report.all_isInner {r : Role} {l : TypedList} {es : List Event}
    (h : l.Report r .typedList es) :
  es.all Event.isInner
  := by
  induction h with
  | trailing names => apply Event.all_isInner_names
  | @group names trailing t groups ts es hnames ht h ih =>
    have hgroup : (names.map (Event.name r) ++ ts).all Event.isInner :=
      Event.all_isInner_append (Event.all_isInner_names r names) ht.all_isInner
    apply Event.all_isInner_append _ ih
    simpa [Event.within, Event.isInner] using hgroup

theorem Term.Report.all_isInner {ts : List Term} {es : List Event}
    (h : List.Forall₂ Term.Report ts es) :
  es.all Event.isInner
  := by
  induction h with
  | nil => rfl
  | cons h _ ih =>
    cases h with
    | var name => exact ih
    | const name => exact ih

mutual

/-- No part of a description is left in the report of a formula. -/
theorem Formula.Report.all_isInner :
  ∀ {f : Formula} {es : List Event}, f.Report es → es.all Event.isInner
  | _, _, .atom name h => by
      apply Event.all_isInner_shape
      rw [List.all_cons, Term.Report.all_isInner h]
      rfl
  | _, _, .negation h => Event.all_isInner_shape _ h.all_isInner
  | _, _, .conjunction h => Event.all_isInner_shape _ h.all_isInner
  | _, _, .equality hl hr =>
      Event.all_isInner_shape _ (Term.Report.all_isInner (.cons hl (.cons hr .nil)))
  | _, _, .universal hl h =>
      Event.all_isInner_shape _ (Event.all_isInner_append hl.all_isInner h.all_isInner)
  | _, _, .conditional hc he =>
      Event.all_isInner_shape _ (Event.all_isInner_append hc.all_isInner he.all_isInner)

theorem Formula.ReportAll.all_isInner :
  ∀ {fs : List Formula} {es : List Event}, Formula.ReportAll fs es → es.all Event.isInner
  | _, _, .nil => rfl
  | _, _, .cons h hs => Event.all_isInner_append h.all_isInner hs.all_isInner

end

/-- The declarations of a typed list of type names; a name without a parent derives from
`object`. -/
def TypedList.toDeclarations (l : TypedList) : List TypeDeclaration :=
  l.items (.ofName · .object) fun t d => { d with parent := t }

/-- The events that report a formula, if there is one. -/
inductive Formula.ReportOption : Option Formula → List Event → Prop where
  | none : ReportOption none []
  | some {f : Formula} {es : List Event} (h : f.Report es) : ReportOption (some f) es

namespace Draft

/-! ### Running events -/

/-- What a sequence of events does to a draft, up to the first one that fails. -/
def onEvents (es : List Event) : Drafting Unit :=
  forM es onEvent

theorem onEvents_cons {e : Event} {d d' : Draft} (es : List Event)
    (h : onEvent e d = .ok () d') :
  onEvents (e :: es) d = onEvents es d'
  := forM_cons_ok es h

theorem onEvents_append {es : List Event} {d d' : Draft} (es' : List Event)
    (h : onEvents es d = .ok () d') :
  onEvents (es ++ es') d = onEvents es' d'
  := forM_append_ok es' h

/-- An operation on the builder changes nothing else. -/
theorem build_ok {α : Type} {op : Build α} {d : Draft} {a : α} {b : Builder}
    (h : op d.builder = .ok a b) :
  build op d = .ok a { d with builder := b }
  := by
  rw [build, h]

/-- Events that only concern the builder do to it what they do to a builder by itself. -/
theorem onEvents_inner {es : List Event} (hes : es.all Event.isInner) {d : Draft} {b : Builder}
    (h : Builder.onEvents es d.builder = .ok () b) :
  onEvents es d = .ok () { d with builder := b }
  := by
  induction es generalizing d with
  | nil =>
    cases h
    rfl
  | cons e es ih =>
    rw [List.all_cons, Bool.and_eq_true] at hes
    have hbuild : onEvent e d = build (Builder.onEvent e) d := by
      obtain ⟨he, -⟩ := hes
      cases e with
      | leave c =>
        cases c with
        | part p => contradiction
        | _ => rfl
      | _ => rfl
    obtain ⟨b', hstep, hrest⟩ := exists_of_forM_cons_ok h
    rw [onEvents_cons es (hbuild.trans (build_ok hstep))]
    apply ih (d := { d with builder := b' }) hes.2 hrest

/-! ### What is noted -/

/-- To a draft whose builder is empty the events do what `note` says, and leave the builder
empty. -/
def Notes (T : Option Ty) (es : List Event) (note : Draft → Draft) : Prop :=
  ∀ d : Draft, d.builder = .new T → onEvents es d = .ok () (note d) ∧ (note d).builder = .new T

theorem notes_nil (T : Option Ty) :
  Notes T [] id
  := fun _ hd => ⟨rfl, hd⟩

/-- What is reported later is noted later. -/
theorem Notes.append {T : Option Ty} {es es' : List Event} {note note' : Draft → Draft}
    (h : Notes T es note) (h' : Notes T es' note') :
  Notes T (es ++ es') (note' ∘ note)
  := by
  intro d hd
  obtain ⟨hrun, hbuilder⟩ := h d hd
  rw [onEvents_append _ hrun]
  apply h' _ hbuilder

/-- A part of a description is built first; then the part is left, and what has been built is
noted. -/
theorem notes_part {p : Part} {es : List Event} {T : Option Ty} {fs : List Frame}
    {note : Draft → Draft} (hes : es.all Event.isInner)
    (h : Builder.onEvents es (.new T) = .ok () ⟨T, fs⟩)
    (hleave : ∀ d, d.builder = .new T →
      leave p { d with builder := ⟨T, fs⟩ } = .ok () (note d) ∧ (note d).builder = .new T) :
  Notes T (Event.within (.part p) es) note
  := by
  intro d hd
  obtain ⟨hlast, hbuilder⟩ := hleave d hd
  have henter : onEvent (.enter (.part p)) d = .ok () d := rfl
  rw [← hd] at h
  rw [Event.within, onEvents_cons _ henter, onEvents_append _ (onEvents_inner hes h)]
  exact ⟨onEvents_cons [] hlast, hbuilder⟩

/-! ### Taking what has been built -/

/-- Frames in each of which a view finds something are taken in the order in which they were put
on the stack. -/
theorem takeAll_map {α : Type} {view : Frame → Option α} {frame : α → Frame}
    (hview : ∀ f a, view f = some a ↔ f = frame a) (T : Option Ty) (as : List α) :
  Builder.takeAll view ⟨T, (as.map frame).reverse⟩ = .ok as (.new T)
  := (Builder.takeAll_eq_ok_iff hview).mpr ⟨[], (List.append_nil _).symm, by simp, rfl⟩

theorem takeVariables_terms (T : Option Ty) (vs : List Variable) :
  Builder.takeVariables ⟨T, (vs.map (.term <| .var ·)).reverse⟩
    = .ok (vs.map (Variable.withDefault T)) (.new T)
  := by
  have h := takeAll_map (fun _ _ => Frame.var?_eq_some_iff) T vs
  rw [Builder.takeVariables, bind_ok h]
  rfl

theorem takeConstants_terms (T : Option Ty) (cs : List Constant) :
  Builder.takeConstants ⟨T, (cs.map (.term <| .const ·)).reverse⟩
    = .ok (cs.map (Constant.withDefault T)) (.new T)
  := by
  have h := takeAll_map (fun _ _ => Frame.const?_eq_some_iff) T cs
  rw [Builder.takeConstants, bind_ok h]
  rfl

/-! ### Lists of variables and constants -/

/-- The parameters of an action are noted. -/
theorem notes_parameters {l : TypedList} {es : List Event} (h : l.Report .variable .typedList es)
    (T : Option Ty) :
  Notes T (Event.within (.part .parameters) es)
    fun d => { d with parameters := l.toVariables.map (Variable.withDefault T) }
  := by
  apply notes_part h.all_isInner
  · apply Builder.onEvents_variables h
    simp
  · rintro ⟨_⟩ rfl
    rw [List.append_nil, leave, bind_ok (build_ok (takeVariables_terms T _))]
    exact ⟨rfl, rfl⟩

/-- Declared constants or objects are noted. -/
theorem notes_constants {l : TypedList} {es : List Event} (h : l.Report .constant .typedList es)
    (T : Option Ty) {p : Part} (hp : p = .constants ∨ p = .objects) :
  Notes T (Event.within (.part p) es)
    fun d => { d with constants := l.toConstants.map (Constant.withDefault T) }
  := by
  apply notes_part h.all_isInner
  · apply Builder.onEvents_constants h
    simp
  · rintro ⟨_⟩ rfl
    rw [List.append_nil]
    obtain rfl | rfl := hp
    · rw [leave, bind_ok (build_ok (takeConstants_terms T _))]
      exact ⟨rfl, rfl⟩
    · rw [leave, bind_ok (build_ok (takeConstants_terms T _))]
      exact ⟨rfl, rfl⟩

/-! ### Predicates -/

/-- The declaration of a predicate is noted after those that are there. -/
theorem notes_predicate (name : String) {l : TypedList} {es : List Event}
    (h : l.Report .variable .typedList es) (T : Option Ty) :
  Notes T
    (Event.within (.part .predicate) (Event.within (.shape .atom) (.name .predicate name :: es)))
    fun d => { d with
      predicates := d.predicates ++
        [.ofName name (l.toVariables.map fun v => .var (v.withDefault T))] }
  := by
  have hinner : (.name .predicate name :: es).all Event.isInner := h.all_isInner
  apply notes_part (Event.all_isInner_shape .atom hinner)
  · apply Builder.onEvents_within (o := .atom (some name.toLower))
      (l.toVariables.map (.term <| .var ·)) []
    · rw [Builder.onEvents_cons _
        (show Builder.onEvent (.name .predicate name) _ = .ok () _ from rfl)]
      apply Builder.onEvents_variables h T [.opened (.atom (some name.toLower))]
      simp [Frame.isUntyped]
    · rfl
    · simp [Frame.isOpen]
    · have hvars := Opening.Assembles.atom (T := T) name.toLower (l.toVariables.map .var)
      rwa [List.map_map] at hvars
  · rintro ⟨_⟩ rfl
    have htake : Builder.takePredicate ⟨T, [.atom ⟨name.toLower, l.toVariables.map .var⟩]⟩
        = .ok (Atom.withVariableDefault T ⟨name.toLower, l.toVariables.map .var⟩) (.new T) := rfl
    have hatom : Atom.withVariableDefault T ⟨name.toLower, l.toVariables.map .var⟩
        = .ofName name (l.toVariables.map fun v => .var (v.withDefault T)) := by
      rw [Atom.withVariableDefault, List.map_map]
      rfl
    rw [leave, bind_ok (build_ok htake), hatom]
    exact ⟨rfl, rfl⟩

/-! ### Formulas -/

/-- A formula on top of an empty builder is taken, and none if there is none. -/
theorem takeFormula?_frames (f : Option Formula) (T : Option Ty) :
  Builder.takeFormula? ⟨T, (f.map Formula.frame).toList⟩ = .ok f (.new T)
  := by
  cases f with
  | none => rfl
  | some f => apply Builder.takeFormula?_frame

theorem checkEmpty_ok {T : Option Ty} {d : Draft} (operation : String) (hd : d.builder = .new T) :
  build (Builder.checkEmpty operation) d = .ok () d
  := by
  obtain ⟨b⟩ := d
  obtain rfl : b = .new T := hd
  rfl

/-- A part that holds a formula or none: when it is left, the formula goes where `note` puts
it. -/
theorem notes_formula {p : Part} {operation : String} (note : Option Formula → Draft → Draft)
    (hleave : leave p = do
      let f ← build Builder.takeFormula?
      modify (note f)
      build (Builder.checkEmpty operation))
    (hnote : ∀ f d, (note f d).builder = d.builder) {f : Option Formula} {es : List Event}
    (h : Formula.ReportOption f es) (T : Option Ty) :
  Notes T (Event.within (.part p) es) (note (f.map (Formula.withDefault T)))
  := by
  have hinner : es.all Event.isInner := by
    cases h with
    | none => rfl
    | some h => exact h.all_isInner
  have hbuilt : Builder.onEvents es (.new T)
      = .ok () ⟨T, ((f.map (Formula.withDefault T)).map Formula.frame).toList⟩ := by
    cases h with
    | none => rfl
    | some h => exact Builder.onEvents_formula T h []
  generalize f.map (Formula.withDefault T) = g at hbuilt ⊢
  apply notes_part hinner hbuilt
  intro d hd
  have htake : build Builder.takeFormula? { d with builder := ⟨T, (g.map Formula.frame).toList⟩ }
      = .ok g d := by
    rw [build_ok (takeFormula?_frames g T), ← hd]
  have hmodify : (modify (note g) : Drafting Unit) d = .ok () (note g d) := rfl
  have hempty := (hnote g d).trans hd
  rw [hleave, bind_ok htake, bind_ok hmodify]
  exact ⟨checkEmpty_ok operation hempty, hempty⟩

theorem notes_precondition {f : Option Formula} {es : List Event} (h : Formula.ReportOption f es)
    (T : Option Ty) :
  Notes T (Event.within (.part .precondition) es)
    fun d => { d with precondition := f.map (Formula.withDefault T) }
  := notes_formula (fun f d => { d with precondition := f }) rfl (fun _ _ => rfl) h T

theorem notes_effect {f : Option Formula} {es : List Event} (h : Formula.ReportOption f es)
    (T : Option Ty) :
  Notes T (Event.within (.part .effect) es)
    fun d => { d with effect := f.map (Formula.withDefault T) }
  := notes_formula (fun f d => { d with effect := f }) rfl (fun _ _ => rfl) h T

theorem notes_goal {f : Option Formula} {es : List Event} (h : Formula.ReportOption f es)
    (T : Option Ty) :
  Notes T (Event.within (.part .goal) es)
    fun d => { d with goal := f.map (Formula.withDefault T) }
  := notes_formula (fun f d => { d with goal := f }) rfl (fun _ _ => rfl) h T

/-- A literal of the initial state is noted after those that are there. -/
theorem notes_initLiteral {f : Formula} {es : List Event} (h : f.Report es) (T : Option Ty) :
  Notes T (Event.within (.part .initLiteral) es)
    fun d => { d with init := d.init ++ [f.withDefault T] }
  := by
  apply notes_part h.all_isInner (Builder.onEvents_formula T h [])
  rintro ⟨_⟩ rfl
  rw [leave, bind_ok (build_ok (Builder.takeFormula?_frame _ T []))]
  exact ⟨rfl, rfl⟩

/-! ### Types -/

/-- Each type name is declared after those that are there. -/
theorem forM_declareType (t : Ty) (names : List String) (d : Draft) :
  (forM (names.map Ty.primitive) (declareType t) : Drafting Unit) d
    = .ok () { d with types := d.types ++ names.map (.ofName · t) }
  := by
  induction names generalizing d with
  | nil =>
    rw [List.map_nil, List.map_nil, List.append_nil]
    rfl
  | cons n ns ih =>
    have hone : declareType t (.primitive n) d
        = .ok () { d with types := d.types ++ [.ofName n.toLower t] } := rfl
    rw [List.map_cons, forM_cons_ok _ hone, ih, List.append_assoc, TypeDeclaration.ofName,
      toLower_toLower]
    rfl

/-- Type names on the stack become declarations. -/
theorem declareTypes_names {names : List String} (hnames : names ≠ []) (t : Ty) (T : Option Ty)
    (d : Draft) :
  declareTypes t { d with builder := ⟨T, (names.map (.ty <| .primitive ·)).reverse⟩ }
    = .ok () { d with builder := .new T, types := d.types ++ names.map (.ofName · t) }
  := by
  have htake := takeAll_map (fun _ _ => Frame.ty?_eq_some_iff) T (names.map Ty.primitive)
  rw [List.map_map] at htake
  rw [declareTypes, Builder.takeTypes, bind_ok (build_ok htake)]
  cases names with
  | nil => contradiction
  | cons n ns => exact forM_declareType t (n :: ns) _

theorem pushes_typeNames (names : List String) :
  List.Forall₂ Builder.Pushes (names.map (.name .type)) (names.map (.ty <| .primitive ·))
  := by
  rw [List.forall₂_map_left_iff, List.forall₂_map_right_iff, List.forall₂_same]
  intro name _ T fs
  rfl

/-- A group of type names with their parent is declared. -/
theorem notes_subtypes {names : List String} (hnames : names ≠ []) {t : Ty} {ts : List Event}
    (ht : t.Report ts) (T : Option Ty) :
  Notes T (Event.within (.part .subtypes) (names.map (.name .type) ++ ts))
    fun d => { d with types := d.types ++ names.map (.ofName · t) }
  := by
  apply notes_part (Event.all_isInner_append (Event.all_isInner_names _ _) ht.all_isInner)
  · rw [Builder.new,
      Builder.onEvents_append _ (Builder.onEvents_pushes _ (pushes_typeNames names) T []),
      Builder.onEvents_ty ht, List.append_nil]
  · rintro ⟨_⟩ rfl
    have htake : ∀ fs, Builder.takeType ⟨T, .ty t :: fs⟩ = .ok t ⟨T, fs⟩ := fun _ => rfl
    rw [leave, bind_ok (build_ok (htake _))]
    exact ⟨declareTypes_names hnames t T _, rfl⟩

/-- The groups of declared types are noted one by one; the names after them, which have no
parent, stay on the stack. -/
theorem onEvents_subtypes {l : TypedList} {es : List Event} {T : Option Ty}
    (h : l.Report .type (.part .subtypes) es) :
  ∀ d : Draft, d.builder = .new T →
    onEvents es d = .ok ()
      { d with
        builder := ⟨T, (l.trailing.map (.ty <| .primitive ·)).reverse⟩
        types := d.types ++
          l.groups.flatMap fun (names, t) => names.map (TypeDeclaration.ofName · t) }
  := by
  induction h with
  | trailing names =>
    intro d hd
    have hbuilt : Builder.onEvents (names.map (.name .type)) d.builder
        = .ok () ⟨T, (names.map (.ty <| .primitive ·)).reverse⟩ := by
      rw [hd, Builder.new, Builder.onEvents_pushes _ (pushes_typeNames names), List.append_nil]
    rw [onEvents_inner (Event.all_isInner_names _ _) hbuilt]
    simp
  | group hnames ht h ih =>
    intro d hd
    obtain ⟨hrun, hbuilder⟩ := notes_subtypes hnames ht T d hd
    rw [onEvents_append _ hrun, ih _ hbuilder]
    simp

theorem leave_types_of_isEmpty {d : Draft} (h : d.builder.isEmpty = false) :
  leave .types d = (do declareTypes .object; build (Builder.checkEmpty "types")) d
  := by
  have hget : (get : Drafting Draft) d = .ok d d := rfl
  rw [leave, bind_ok hget, h]
  rfl

/-- The names without a parent are declared when the types are left. -/
theorem leave_types (names : List String) (T : Option Ty) (d : Draft) :
  leave .types { d with builder := ⟨T, (names.map (.ty <| .primitive ·)).reverse⟩ }
    = .ok () { d with builder := .new T, types := d.types ++ names.map (.ofName · .object) }
  := by
  cases names with
  | nil =>
    rw [List.map_nil, List.map_nil, List.append_nil]
    rfl
  | cons n ns =>
    rw [leave_types_of_isEmpty, bind_ok (declareTypes_names (List.cons_ne_nil n ns) .object T d)]
    · rfl
    · rw [Builder.isEmpty, List.isEmpty_reverse]
      rfl

/-- The declared types are noted. -/
theorem notes_types {l : TypedList} {es : List Event} (h : l.Report .type (.part .subtypes) es)
    (T : Option Ty) :
  Notes T (Event.within (.part .types) es)
    fun d => { d with types := d.types ++ l.toDeclarations }
  := by
  intro d hd
  have henter : onEvent (.enter (.part .types)) d = .ok () d := rfl
  have hrun := onEvents_subtypes h d hd
  have hlast := leave_types l.trailing T
    { d with types := d.types ++
        l.groups.flatMap fun (names, t) => names.map (TypeDeclaration.ofName · t) }
  rw [Event.within, onEvents_cons _ henter, onEvents_append _ hrun]
  rw [← hd, List.append_assoc] at hlast
  exact ⟨onEvents_cons [] hlast, hd⟩

end Draft

end PlanLang
