import PlanLang.Proofs.Builder.Openings
import PlanLang.Proofs.Builder.Parts
import PlanLang.Proofs.Report

/-!
# Assembling reported formulas

A builder that is told a report of a formula ends with the formula on top of the frames it had
before, whatever these are.  A type that is the default of the builder goes to the bound
variables without a type, and to nothing else.
-/

namespace PlanLang

namespace Formula

mutual

/-- The formula with the type `ty` for each bound variable that has none of its own. -/
def withDefault (ty : Option Ty) : Formula → Formula
  | atom a => .atom a
  | negation f => .negation (withDefault ty f)
  | conjunction fs => .conjunction (withDefaultAll ty fs)
  | equality l r => .equality l r
  | universal vs f => .universal (vs.map (Variable.withDefault ty)) (withDefault ty f)
  | conditional c e => .conditional (withDefault ty c) (withDefault ty e)

/-- The formulas with the type `ty` for each bound variable that has none of its own. -/
def withDefaultAll (ty : Option Ty) : List Formula → List Formula
  | [] => []
  | f :: fs => withDefault ty f :: withDefaultAll ty fs

end

/-- The frame that holds a finished formula; an atom stays an atom. -/
def frame : Formula → Frame
  | atom a => .atom a
  | f => .formula f

@[simp]
theorem formula?_frame (f : Formula) :
  f.frame.formula? = some f
  := by
  cases f <;> rfl

@[simp]
theorem isOpen_frame (f : Formula) :
  f.frame.isOpen = false
  := by
  cases f <;> rfl

end Formula

/-- An `either` around names makes up the type with all of them. -/
theorem Opening.Assembles.either_names {names : List String} {t : Ty}
    (h : Ty.either? names = some t) (T : Option Ty) :
  Assembles T .either (names.map fun name => .ty (.primitive name)) (.ty t)
  := by
  cases names with
  | nil => contradiction
  | cons n ns =>
    obtain rfl : ns.foldl Ty.insert (.primitive n) = t := Option.some.inj h
    have hparts := Assembles.either (T := T) (.primitive n) (ns.map Ty.primitive)
    rw [← List.map_cons, List.map_map, List.foldl_map] at hparts
    simp only [Ty.union_primitive] at hparts
    exact hparts

namespace Builder

/-! ### Running events -/

/-- What a sequence of events does to a builder, up to the first one that fails. -/
def onEvents (es : List Event) : Build Unit :=
  forM es onEvent

theorem onEvents_cons {e : Event} {b b' : Builder} (es : List Event)
    (h : onEvent e b = .ok () b') :
  onEvents (e :: es) b = onEvents es b'
  := forM_cons_ok es h

theorem onEvents_single {e : Event} {b b' : Builder} (h : onEvent e b = .ok () b') :
  onEvents [e] b = .ok () b'
  := onEvents_cons [] h

theorem onEvents_append {es : List Event} {b b' : Builder} (es' : List Event)
    (h : onEvents es b = .ok () b') :
  onEvents (es ++ es') b = onEvents es' b'
  := forM_append_ok es' h

/-- The event `e` puts the frame `f` on top of any builder. -/
def Pushes (e : Event) (f : Frame) : Prop :=
  ∀ T fs, onEvent e ⟨T, fs⟩ = .ok () ⟨T, f :: fs⟩

/-- Events that put frames on top put them there one by one. -/
theorem onEvents_pushes {es : List Event} (parts : List Frame)
    (h : List.Forall₂ Pushes es parts) (T : Option Ty) (fs : List Frame) :
  onEvents es ⟨T, fs⟩ = .ok () ⟨T, parts.reverse ++ fs⟩
  := by
  induction h generalizing fs with
  | nil => rfl
  | cons he _ ih =>
    rw [onEvents_cons _ (he T fs), ih]
    simp

/-- Ending the innermost construct replaces its opening and its parts by what they make up. -/
theorem finish_ok {s : Shape} {o : Opening} {parts : List Frame} {T : Option Ty} {f : Frame}
    (hs : o.shape = s) (hparts : ∀ p ∈ parts, p.isOpen = false)
    (ho : o.Assembles T parts f) (fs : List Frame) :
  finish s ⟨T, parts.reverse ++ .opened o :: fs⟩ = .ok () ⟨T, f :: fs⟩
  := by
  have hrev : ∀ p ∈ parts.reverse, p.isOpen = false := by
    intro p hp
    apply hparts p (List.mem_reverse.mp hp)
  simp [finish, innermost?_of_innermost ⟨rfl, hrev⟩, hs, ho.assemble_eq]

/-- A construct whose events put parts above its opening becomes one frame. -/
theorem onEvents_within {s : Shape} {o : Opening} {es : List Event} (parts : List Frame)
    {T : Option Ty} {f : Frame} (fs : List Frame)
    (h : onEvents es ⟨T, .opened (.ofShape s) :: fs⟩
      = .ok () ⟨T, parts.reverse ++ .opened o :: fs⟩)
    (hs : o.shape = s) (hparts : ∀ p ∈ parts, p.isOpen = false)
    (ho : o.Assembles T parts f) :
  onEvents (Event.within (.shape s) es) ⟨T, fs⟩ = .ok () ⟨T, f :: fs⟩
  := by
  rw [Event.within, onEvents_cons _ (show onEvent (.enter (.shape s)) ⟨T, fs⟩ = .ok () _ from rfl),
    onEvents_append _ h]
  apply onEvents_single
  apply finish_ok hs hparts ho

/-! ### Types and typed lists -/

/-- A reported type is put on top. -/
theorem onEvents_ty {t : Ty} {es : List Event} (h : t.Report es) (T : Option Ty)
    (fs : List Frame) :
  onEvents es ⟨T, fs⟩ = .ok () ⟨T, .ty t :: fs⟩
  := by
  cases h with
  | primitive name => rfl
  | either h =>
    rename_i names
    have hpush : List.Forall₂ Pushes (names.map (.name .type))
        (names.map fun name => .ty (.primitive name)) := by
      simp [List.forall₂_map_left_iff, List.forall₂_map_right_iff, List.forall₂_same, Pushes]
      intro x hx T fs
      rfl
    apply onEvents_within _ fs (onEvents_pushes _ hpush T _) rfl
    · simp [Frame.isOpen]
    · apply Opening.Assembles.either_names h

/-- A type goes to all the terms without a type on top. -/
theorem annotate_ok (t : Ty) (T : Option Ty) {run : List Term} (hrun : run ≠ [])
    (hty : ∀ x ∈ run, x.ty = none) {fs : List Frame}
    (hfs : ∀ f ∈ fs.head?, f.isUntyped = false) :
  annotate t ⟨T, run.map .term ++ fs⟩ = .ok () ⟨T, (run.map (Term.withType t)).map .term ++ fs⟩
  := by
  have hrun' : ∀ f ∈ run.map Frame.term, f.isUntyped = true := by
    simpa [Frame.isUntyped] using hty
  obtain ⟨htop, hrest⟩ :=
    (takeWhile_and_dropWhile_iff Frame.isUntyped (run.map .term ++ fs)).mpr ⟨rfl, hrun', hfs⟩
  rw [annotate, htop, hrest]
  cases run with
  | nil => contradiction
  | cons x xs => simp [Frame.withType]

section

variable {r : Role} (item : String → Term)

/-- A group of names gets the type that follows it. -/
theorem onEvents_group (hpush : ∀ name, Pushes (.name r name) (.term (item name)))
    (hty : ∀ name, (item name).ty = none) {names : List String} (hnames : names ≠ []) {t : Ty}
    {ts : List Event} (ht : t.Report ts) (T : Option Ty) {fs : List Frame}
    (hfs : ∀ f ∈ fs.head?, f.isUntyped = false) :
  onEvents (Event.within .typedList (names.map (.name r) ++ ts)) ⟨T, fs⟩
    = .ok () ⟨T, (names.map fun name => .term ((item name).withType t)).reverse ++ fs⟩
  := by
  have hnamed : onEvents (names.map (.name r)) ⟨T, fs⟩
      = .ok () ⟨T, (names.map item).reverse.map .term ++ fs⟩ := by
    rw [onEvents_pushes (names.map fun name => .term (item name))]
    · simp [List.map_reverse]
    · simp [List.forall₂_map_left_iff, List.forall₂_map_right_iff, List.forall₂_same, hpush]
  have hleave : onEvent (.leave .typedList) ⟨T, .ty t :: ((names.map item).reverse.map .term ++ fs)⟩
      = .ok () ⟨T, ((names.map item).reverse.map (Term.withType t)).map .term ++ fs⟩ := by
    apply annotate_ok t T _ _ hfs
    · simpa using hnames
    · simpa using fun name _ => hty name
  rw [Event.within, List.append_assoc,
    onEvents_cons _ (show onEvent (.enter .typedList) ⟨T, fs⟩ = .ok () ⟨T, fs⟩ from rfl),
    onEvents_append _ hnamed, onEvents_append _ (onEvents_ty ht T _), onEvents_single hleave]
  simp [List.map_reverse]

/-- The items of a reported typed list are put on top, each with the type of its group. -/
theorem onEvents_typedList (hpush : ∀ name, Pushes (.name r name) (.term (item name)))
    (hty : ∀ name, (item name).ty = none) {l : TypedList} {es : List Event}
    (h : l.Report r .typedList es) (T : Option Ty) (fs : List Frame)
    (hfs : ∀ f ∈ fs.head?, f.isUntyped = false) :
  onEvents es ⟨T, fs⟩ = .ok () ⟨T, ((l.items item Term.withType).map .term).reverse ++ fs⟩
  := by
  induction h generalizing fs with
  | trailing names =>
    apply onEvents_pushes
    simp [TypedList.items, List.forall₂_map_left_iff, List.forall₂_map_right_iff,
      List.forall₂_same, hpush]
  | @group names trailing t groups ts es hnames ht h ih =>
    rw [onEvents_append _ (onEvents_group item hpush hty hnames ht T hfs), ih]
    · simp [TypedList.items]
    · -- the last variable of the group is on top, and it has a type now
      cases hrev : names.reverse with
      | nil => simp_all
      | cons n ns => 
        simp [← List.map_reverse, hrev, Frame.isUntyped]
        cases item n <;> rfl

end

/-- The variables of a reported typed list are put on top. -/
theorem onEvents_variables {l : TypedList} {es : List Event}
    (h : l.Report .variable .typedList es) (T : Option Ty) (fs : List Frame)
    (hfs : ∀ f ∈ fs.head?, f.isUntyped = false) :
  onEvents es ⟨T, fs⟩ = .ok () ⟨T, (l.toVariables.map (.term <| .var ·)).reverse ++ fs⟩
  := by
  rw [onEvents_typedList (.var <| .ofName ·) (fun _ _ _ => rfl) (fun _ => rfl) h T fs hfs]
  simp [TypedList.toVariables, TypedList.items, List.map_flatMap, Term.withType, Function.comp_def]

/-- The constants of a reported typed list are put on top. -/
theorem onEvents_constants {l : TypedList} {es : List Event}
    (h : l.Report .constant .typedList es) (T : Option Ty) (fs : List Frame)
    (hfs : ∀ f ∈ fs.head?, f.isUntyped = false) :
  onEvents es ⟨T, fs⟩ = .ok () ⟨T, (l.toConstants.map (.term <| .const ·)).reverse ++ fs⟩
  := by
  rw [onEvents_typedList (.const <| .ofName ·) (fun _ _ _ => rfl) (fun _ => rfl) h T fs
    hfs]
  simp [TypedList.toConstants, TypedList.items, List.map_flatMap, Term.withType, Function.comp_def]

/-! ### Formulas -/

/-- The event of a term puts the term on top. -/
theorem pushes_term {t : Term} {e : Event} (h : t.Report e) :
  Pushes e (.term t)
  := by
  cases h with
  | var name => exact fun _ _ => rfl
  | const name => exact fun _ _ => rfl

theorem pushes_terms {ts : List Term} {es : List Event} (h : List.Forall₂ Term.Report ts es) :
  List.Forall₂ Pushes es (ts.map .term)
  := by
  induction h with
  | nil => exact .nil
  | cons h _ ih => exact .cons (pushes_term h) ih

/-- A reported atom is put on top. -/
theorem onEvents_atom {ts : List Term} {es : List Event} (name : String)
    (h : List.Forall₂ Term.Report ts es) (T : Option Ty) (fs : List Frame) :
  onEvents (Event.within (.shape .atom) (.name .predicate name :: es)) ⟨T, fs⟩
    = .ok () ⟨T, .atom (.ofName name ts) :: fs⟩
  := by
  apply onEvents_within (o := .atom (some name.toLower)) (ts.map .term) fs
  · rw [onEvents_cons _ (show onEvent (.name .predicate name) _ = .ok () _ from rfl)]
    apply onEvents_pushes _ (pushes_terms h)
  · rfl
  · simp [Frame.isOpen]
  · apply Opening.Assembles.atom

mutual

/-- A reported formula is put on top, with the default type in it. -/
theorem onEvents_formula (T : Option Ty) :
  ∀ {f : Formula} {es : List Event}, f.Report es →
    ∀ fs, onEvents es ⟨T, fs⟩ = .ok () ⟨T, (f.withDefault T).frame :: fs⟩
  | _, _, .atom name h, fs => onEvents_atom name h T fs
  | .negation f, _, .negation h, fs => by
      apply onEvents_within ([(f.withDefault T).frame]) fs
      · apply onEvents_formula T h
      · rfl
      · simp
      · apply Opening.Assembles.negation (Formula.formula?_frame _)
  | .conjunction gs, _, .conjunction h, fs => by
      apply onEvents_within ((Formula.withDefaultAll T gs).map Formula.frame) fs
      · apply onEvents_formulas T h
      · rfl
      · simp
      · apply Opening.Assembles.conjunction
        rw [List.map_map]
        exact List.map_congr_left fun f _ => Formula.formula?_frame f
  | .equality l r, _, .equality hl hr, fs => by
      apply onEvents_within ([.term l, .term r]) fs
      · apply onEvents_pushes _ (.cons (pushes_term hl) (.cons (pushes_term hr) .nil))
      · rfl
      · simp [Frame.isOpen]
      · apply Opening.Assembles.equality
  | _, _, @Formula.Report.universal l f _ _ hl h, fs => by
      apply onEvents_within (l.toVariables.map (.term <| .var ·) ++ [(f.withDefault T).frame]) fs
      · rw [onEvents_append _ (onEvents_variables hl T _ (by simp [Frame.isUntyped])),
          onEvents_formula T h]
        simp
        rfl
      · rfl
      · intro p hp
        rcases List.mem_append.mp hp with hp | hp
        · obtain ⟨v, -, rfl⟩ := List.mem_map.mp hp
          rfl
        · obtain rfl := List.mem_singleton.mp hp
          apply Formula.isOpen_frame
      · apply Opening.Assembles.universal _ (Formula.formula?_frame _)
  | .conditional c e, _, .conditional hc he, fs => by
      apply onEvents_within ([(c.withDefault T).frame, (e.withDefault T).frame]) fs
      · rw [onEvents_append _ (onEvents_formula T hc _), onEvents_formula T he]
        rfl
      · rfl
      · simp
      · apply Opening.Assembles.conditional <;> apply Formula.formula?_frame

/-- Reported formulas are put on top one by one, with the default type in them. -/
theorem onEvents_formulas (T : Option Ty) :
  ∀ {gs : List Formula} {es : List Event}, Formula.ReportAll gs es →
    ∀ fs, onEvents es ⟨T, fs⟩
      = .ok () ⟨T, ((Formula.withDefaultAll T gs).map Formula.frame).reverse ++ fs⟩
  | _, _, .nil, fs => rfl
  | _, _, .cons h hs, fs => by
      rw [onEvents_append _ (onEvents_formula T h fs), onEvents_formulas T hs]
      simp [Formula.withDefaultAll]

end

end Builder

/-! ### Builders without a default type -/

theorem Variable.withDefault_none (v : Variable) :
  v.withDefault none = v
  := by
  rw [withDefault, Option.or_none]

namespace Formula

mutual

/-- Without a default type nothing changes. -/
theorem withDefault_none :
  ∀ f : Formula, f.withDefault none = f
  | .atom _ => rfl
  | .negation f => by rw [withDefault, withDefault_none f]
  | .conjunction fs => by rw [withDefault, withDefaultAll_none fs]
  | .equality _ _ => rfl
  | .universal vs f => by
      rw [withDefault, withDefault_none f, funext Variable.withDefault_none, List.map_id']
  | .conditional c e => by rw [withDefault, withDefault_none c, withDefault_none e]

theorem withDefaultAll_none :
  ∀ fs : List Formula, withDefaultAll none fs = fs
  | [] => rfl
  | f :: fs => by rw [withDefaultAll, withDefault_none f, withDefaultAll_none fs]

end

end Formula

namespace Builder

/-- A formula on top is taken. -/
theorem takeFormula?_frame (f : Formula) (T : Option Ty) (fs : List Frame) :
  takeFormula? ⟨T, f.frame :: fs⟩ = .ok (some f) ⟨T, fs⟩
  := by
  cases f <;> rfl

/-- A formula whose names are stored ones, whose terms have no types and whose bound variables
can be written as typed lists has a report.  Each of its reports is accepted, event by event, by
any builder without a default type, and adds the formula on top of the frames that are there.
Taking the formula brings these frames back. -/
theorem onEvents_of_report {f : Formula} (hf : f.isRegular isStoredName fun _ => true)
    {b : Builder} (hb : b.defaultType = none) :
  f.Report f.events ∧
    ∀ es, f.Report es →
      onEvents es b = .ok () { b with frames := f.frame :: b.frames } ∧
        takeFormula? { b with frames := f.frame :: b.frames } = .ok (some f) b
  := by
  obtain ⟨T, fs⟩ := b
  obtain rfl : T = none := hb
  use Formula.report_events hf
  intro es h
  constructor
  · have hpush := onEvents_formula none h fs
    rwa [Formula.withDefault_none] at hpush
  · apply takeFormula?_frame

/-- On top of an open negation and an untyped variable. -/
theorem onEvents_of_report_universal :
  let f : Formula :=
    .universal [⟨"x", some (.primitive "block")⟩, ⟨"y", none⟩]
      (.conjunction [.atom ⟨"on", [.var ⟨"x", none⟩, .const ⟨"a", none⟩]⟩,
        .negation (.equality (.var ⟨"x", none⟩) (.var ⟨"y", none⟩))])
  let b : Builder := ⟨none, [.term (.var ⟨"z", none⟩), .opened .negation]⟩
  onEvents f.events b = .ok () { b with frames := f.frame :: b.frames } ∧
        takeFormula? { b with frames := f.frame :: b.frames } = .ok (some f) b
  := by
  intro f b
  have hf : f.isRegular isStoredName fun _ => true := by decide +kernel
  obtain ⟨hreport, h⟩ := onEvents_of_report (b := b) hf rfl
  apply h _ hreport

end Builder

end PlanLang
