import Mathlib.Data.List.Forall2
import PlanLang.Event
import PlanLang.Formula
import PlanLang.Proofs.Ty

/-!
# Reports of formulas

A formula is reported by the events of a walk over it, outermost construct first.  The report
fixes the formula, and a formula may have several reports: a type with several names can list
them in any order, and neighbouring variables of one type can be reported as one group or as
several.  `Formula.events` is one report of each formula that has any.
-/

namespace PlanLang

/-- The events of a construct: it is entered, its parts are reported, and it is left. -/
def Event.within (c : Construct) (es : List Event) : List Event :=
  .enter c :: (es ++ [.leave c])

/-! ### Types and typed lists -/

/-- The events that report a type: one name, or one or more names within `either`. -/
inductive Ty.Report : Ty → List Event → Prop where
  | primitive (name : String) : Report (.primitive name) [.name .type name]
  | either {names : List String} {t : Ty} (h : Ty.either? names = some t) :
      Report t (Event.within (.shape .either) (names.map (.name .type)))

/-- A list of names as it is written: groups of names, each with a type, and then the names
without one. -/
structure TypedList where
  groups : List (List String × Ty)
  trailing : List String
deriving DecidableEq

/-- The events that report a typed list whose names stand for `r`.  A group of names and its
type are within `g`. -/
inductive TypedList.Report (r : Role) (g : Construct) : TypedList → List Event → Prop where
  | trailing (names : List String) : Report r g ⟨[], names⟩ (names.map (.name r))
  | group {names trailing : List String} {t : Ty} {groups : List (List String × Ty)}
      {ts es : List Event} (hnames : names ≠ []) (ht : t.Report ts)
      (h : Report r g ⟨groups, trailing⟩ es) :
      Report r g ⟨(names, t) :: groups, trailing⟩
        (Event.within g (names.map (.name r) ++ ts) ++ es)

namespace TypedList

/-- The items that the names stand for, each with the type of its group. -/
def items {α : Type} (item : String → α) (withType : Ty → α → α) (l : TypedList) : List α :=
  l.groups.flatMap (fun (names, t) => names.map fun name => withType t (item name)) ++
    l.trailing.map item

/-- The variables of a typed list. -/
def toVariables (l : TypedList) : List Variable :=
  l.items .ofName fun t v => { v with ty := some t }

/-- The constants of a typed list. -/
def toConstants (l : TypedList) : List Constant :=
  l.items .ofName fun t c => { c with ty := some t }

/-- The typed list with `v` put in front: in the first group if that has the type of `v`, and
otherwise in a group of its own. -/
def cons (v : Variable) (l : TypedList) : TypedList :=
  match v.ty with
  | none => { l with trailing := v.name :: l.trailing }
  | some t =>
    match l.groups with
    | [] => { l with groups := [([v.name], t)] }
    | (names, t') :: groups =>
      if t = t' then { l with groups := (v.name :: names, t') :: groups }
      else { l with groups := ([v.name], t) :: l.groups }

/-- The variables as a typed list, where neighbours of the same type share a group. -/
def ofVariables (vs : List Variable) : TypedList :=
  vs.foldr cons ⟨[], []⟩

end TypedList

/-- No variable without a type stands before one that has a type. -/
def Variable.typedFirst : List Variable → Bool
  | [] => true
  | v :: vs => (v.ty.isSome || vs.all (·.ty.isNone)) && typedFirst vs

/-! ### Formulas -/

/-- The event that reports a term. -/
inductive Term.Report : Term → Event → Prop where
  | var (name : String) : Report (.var (.ofName name)) (.name .variable name)
  | const (name : String) : Report (.const (.ofName name)) (.name .constant name)

mutual

/-- The events that report a formula. -/
inductive Formula.Report : Formula → List Event → Prop where
  | atom {ts : List Term} {es : List Event} (name : String) (h : List.Forall₂ Term.Report ts es) :
      Report (.atom (.ofName name ts)) (Event.within (.shape .atom) (.name .predicate name :: es))
  | negation {f : Formula} {es : List Event} (h : Report f es) :
      Report (.negation f) (Event.within (.shape .negation) es)
  | conjunction {fs : List Formula} {es : List Event} (h : ReportAll fs es) :
      Report (.conjunction fs) (Event.within (.shape .conjunction) es)
  | equality {l r : Term} {e e' : Event} (hl : l.Report e) (hr : r.Report e') :
      Report (.equality l r) (Event.within (.shape .equality) [e, e'])
  | universal {l : TypedList} {f : Formula} {es es' : List Event}
      (hl : l.Report .variable .typedList es) (h : Report f es') :
      Report (.universal l.toVariables f) (Event.within (.shape .universal) (es ++ es'))
  | conditional {c e : Formula} {es es' : List Event} (hc : Report c es) (he : Report e es') :
      Report (.conditional c e) (Event.within (.shape .conditional) (es ++ es'))

/-- The events that report formulas one after the other. -/
inductive Formula.ReportAll : List Formula → List Event → Prop where
  | nil : ReportAll [] []
  | cons {f : Formula} {fs : List Formula} {es es' : List Event} (h : Formula.Report f es)
      (hs : ReportAll fs es') :
      ReportAll (f :: fs) (es ++ es')

end

/-! ### The canonical report -/

/-- The events for a type, with its names in increasing order. -/
def Ty.events (t : Ty) : List Event :=
  match t.primitiveName? with
  | some name => [.name .type name]
  | none => Event.within (.shape .either) (t.names.map (.name .type))

/-- The events for a typed list. -/
def TypedList.events (r : Role) (g : Construct) (l : TypedList) : List Event :=
  l.groups.flatMap (fun (names, t) => Event.within g (names.map (.name r) ++ t.events)) ++
    l.trailing.map (.name r)

/-- The event for a term. -/
def Term.event : Term → Event
  | .var v => .name .variable v.name
  | .const c => .name .constant c.name

namespace Formula

mutual

/-- The events of a walk over a formula. -/
def events : Formula → List Event
  | atom a => Event.within (.shape .atom) (.name .predicate a.name :: a.terms.map Term.event)
  | negation f => Event.within (.shape .negation) (events f)
  | conjunction fs => Event.within (.shape .conjunction) (eventsAll fs)
  | equality l r => Event.within (.shape .equality) [l.event, r.event]
  | universal vs f =>
    Event.within (.shape .universal)
      ((TypedList.ofVariables vs).events .variable .typedList ++ events f)
  | conditional c e => Event.within (.shape .conditional) (events c ++ events e)

/-- The events of a walk over formulas, one after the other. -/
def eventsAll : List Formula → List Event
  | [] => []
  | f :: fs => events f ++ eventsAll fs

end

end Formula

/-! ### Names as they are stored -/

/-- A name as it is stored: in lower case and without a question mark in front. -/
def isStoredName (name : String) : Bool :=
  name.toLower = name && name.toList.head? ≠ some '?'

theorem toLower_of_stored {name : String} (h : isStoredName name) :
  name.toLower = name
  := by
  simp only [isStoredName, Bool.and_eq_true, decide_eq_true_eq] at h
  exact h.1

/-- The variable of a stored name has that name. -/
theorem Variable.ofName_stored {name : String} (h : isStoredName name) :
  Variable.ofName name = ⟨name, none⟩
  := by
  simp only [isStoredName, Bool.and_eq_true, decide_eq_true_eq] at h
  obtain ⟨hlower, hhead⟩ := h
  have hdrop : name.toList.dropWhile (· = '?') = name.toList := by
    cases hn : name.toList with
    | nil => rfl
    | cons c cs =>
      rw [hn] at hhead
      have hc : ¬ (c = '?') := by simpa using hhead
      simp [hc]
  rw [ofName, hdrop, String.ofList_toList, hlower]

/-- The constant of a stored name has that name. -/
theorem Constant.ofName_stored {name : String} (h : isStoredName name) :
  Constant.ofName name = ⟨name, none⟩
  := by
  rw [ofName, toLower_of_stored h]

/-- The term has no type, and `p` holds of its name. -/
def Term.isBare (p : String → Bool) : Term → Bool
  | .var v => v.ty.isNone && p v.name
  | .const c => c.ty.isNone && p c.name

/-- The variables can be written as a typed list: those with a type come first.  Of the names
of the variables `p` holds, and of those of their types `q`. -/
def Variable.areListed (p q : String → Bool) (vs : List Variable) : Bool :=
  typedFirst vs && vs.all fun v => p v.name && v.ty.all (·.names.all q)

namespace Formula

mutual

/-- The terms in the formula have no types, and the variables that it binds can be written as
typed lists.  Of the names in the formula `p` holds, and of those of types `q`. -/
def isRegular (p q : String → Bool) : Formula → Bool
  | atom a => p a.name && a.terms.all (Term.isBare p)
  | negation f => isRegular p q f
  | conjunction fs => areRegular p q fs
  | equality l r => l.isBare p && r.isBare p
  | universal vs f => Variable.areListed p q vs && isRegular p q f
  | conditional c e => isRegular p q c && isRegular p q e

/-- All formulas of a list are regular. -/
def areRegular (p q : String → Bool) : List Formula → Bool
  | [] => true
  | f :: fs => isRegular p q f && areRegular p q fs

end

end Formula

/-! ### Weaker conditions on names -/

theorem Term.isBare_mono {p p' : String → Bool} (hp : ∀ n, p n → p' n) {t : Term}
    (h : t.isBare p) :
  t.isBare p'
  := by
  cases t with
  | var v =>
    rw [isBare, Bool.and_eq_true] at h ⊢
    exact ⟨h.1, hp _ h.2⟩
  | const c =>
    rw [isBare, Bool.and_eq_true] at h ⊢
    exact ⟨h.1, hp _ h.2⟩

theorem Variable.areListed_mono {p p' q q' : String → Bool} (hp : ∀ n, p n → p' n)
    (hq : ∀ n, q n → q' n) {vs : List Variable} (h : areListed p q vs) :
  areListed p' q' vs
  := by
  rw [areListed, Bool.and_eq_true, List.all_eq_true] at h ⊢
  use h.1
  intro v hv
  have hnames := h.2 v hv
  rw [Bool.and_eq_true] at hnames ⊢
  use hp _ hnames.1
  cases hty : v.ty with
  | none => rfl
  | some t =>
    rw [hty] at hnames
    apply List.all_eq_true.mpr
    intro n hn
    apply hq n (List.all_eq_true.mp hnames.2 n hn)

namespace Formula

mutual

/-- A regular formula is regular for weaker conditions on names. -/
theorem isRegular_mono {p p' q q' : String → Bool} (hp : ∀ n, p n → p' n)
    (hq : ∀ n, q n → q' n) :
  ∀ {f : Formula}, f.isRegular p q → f.isRegular p' q'
  | .atom a, h => by
      rw [isRegular, Bool.and_eq_true, List.all_eq_true] at h ⊢
      use hp _ h.1
      intro t ht
      apply Term.isBare_mono hp (h.2 t ht)
  | .negation f, h => isRegular_mono (f := f) hp hq h
  | .conjunction _, h => areRegular_mono hp hq (by exact h)
  | .equality l r, h => by
      rw [isRegular, Bool.and_eq_true] at h ⊢
      exact ⟨Term.isBare_mono hp h.1, Term.isBare_mono hp h.2⟩
  | .universal vs f, h => by
      rw [isRegular, Bool.and_eq_true] at h ⊢
      exact ⟨Variable.areListed_mono hp hq h.1, isRegular_mono hp hq h.2⟩
  | .conditional c e, h => by
      rw [isRegular, Bool.and_eq_true] at h ⊢
      exact ⟨isRegular_mono hp hq h.1, isRegular_mono hp hq h.2⟩

theorem areRegular_mono {p p' q q' : String → Bool} (hp : ∀ n, p n → p' n)
    (hq : ∀ n, q n → q' n) :
  ∀ {fs : List Formula}, areRegular p q fs → areRegular p' q' fs
  | [], _ => rfl
  | f :: fs, h => by
      rw [areRegular, Bool.and_eq_true] at h ⊢
      exact ⟨isRegular_mono hp hq h.1, areRegular_mono hp hq h.2⟩

end

end Formula

/-! ### The canonical report is one -/

/-- The events for a type report it. -/
theorem Ty.report_events (t : Ty) :
  t.Report t.events
  := by
  unfold events
  split
  · rename_i name h
    rw [eq_primitive h]
    exact .primitive name
  · exact .either t.either?_names

namespace TypedList

/-- A typed list all of whose groups have names is reported by its events. -/
theorem report_events (r : Role) (g : Construct) {l : TypedList}
    (h : ∀ group ∈ l.groups, group.1 ≠ []) :
  l.Report r g (l.events r g)
  := by
  obtain ⟨groups, trailing⟩ := l
  induction groups with
  | nil => exact .trailing trailing
  | cons group groups ih =>
    obtain ⟨names, t⟩ := group
    have hnames : names ≠ [] := h (names, t) List.mem_cons_self
    have hrest := ih fun group hg => h group (List.mem_cons_of_mem _ hg)
    have hevents := Report.group hnames t.report_events hrest
    simpa [events] using hevents

/-- No group of the typed list of some variables is empty. -/
theorem ne_nil_of_mem_groups (vs : List Variable) :
  ∀ group ∈ (ofVariables vs).groups, group.1 ≠ []
  := by
  induction vs with
  | nil => simp [ofVariables]
  | cons v vs ih =>
    rw [ofVariables, List.foldr_cons, ← ofVariables, cons]
    split
    · apply ih
    · split
      · simp
      · rename_i names t' groups hgroups
        rw [hgroups] at ih
        split
        · simpa using fun group hg => ih group (List.mem_cons_of_mem _ hg)
        · simpa [hgroups] using ih

/-- Variables without a type make up a typed list without groups. -/
theorem groups_ofVariables {vs : List Variable} (h : ∀ v ∈ vs, v.ty = none) :
  (ofVariables vs).groups = []
  := by
  induction vs with
  | nil => rfl
  | cons v vs ih =>
    rw [ofVariables, List.foldr_cons, ← ofVariables, cons, h v List.mem_cons_self]
    apply ih fun w hw => h w (List.mem_cons_of_mem _ hw)

/-- A variable that is put in front is the first variable, unless it has no type and others
have. -/
theorem toVariables_cons {v : Variable} {l : TypedList} (hv : isStoredName v.name)
    (h : v.ty = none → l.groups = []) :
  (cons v l).toVariables = v :: l.toVariables
  := by
  obtain ⟨groups, trailing⟩ := l
  obtain ⟨name, ty⟩ := v
  have hname : Variable.ofName name = ⟨name, none⟩ := Variable.ofName_stored hv
  cases ty with
  | none =>
    obtain rfl : groups = [] := h rfl
    simp [cons, toVariables, items, hname]
  | some t =>
    cases groups with
    | nil => simp [cons, toVariables, items, hname]
    | cons group groups =>
      obtain ⟨names, t'⟩ := group
      by_cases ht : t = t'
      · simp [cons, toVariables, items, hname, ht]
      · simp [cons, toVariables, items, hname, ht]

/-- The typed list of variables that can be written so has these variables. -/
theorem toVariables_ofVariables {q : String → Bool} {vs : List Variable}
    (h : Variable.areListed isStoredName q vs) :
  (ofVariables vs).toVariables = vs
  := by
  induction vs with
  | nil => rfl
  | cons v vs ih =>
    simp only [Variable.areListed, Variable.typedFirst, List.all_cons, Bool.and_eq_true,
      Bool.or_eq_true] at h ih
    obtain ⟨⟨hfirst, hvs⟩, ⟨hv, -⟩, hall⟩ := h
    rw [ofVariables, List.foldr_cons, ← ofVariables, toVariables_cons hv, ih ⟨hvs, hall⟩]
    intro hty
    apply groups_ofVariables
    simpa [hty] using hfirst

end TypedList

/-- The event for a term that has no type reports it. -/
theorem Term.report_event {t : Term} (h : t.isBare isStoredName) :
  t.Report t.event
  := by
  cases t with
  | var v =>
    obtain ⟨name, ty⟩ := v
    simp only [isBare, Bool.and_eq_true, Option.isNone_iff_eq_none] at h
    obtain ⟨rfl, hname⟩ := h
    have hreport := Report.var name
    rwa [Variable.ofName_stored hname] at hreport
  | const c =>
    obtain ⟨name, ty⟩ := c
    simp only [isBare, Bool.and_eq_true, Option.isNone_iff_eq_none] at h
    obtain ⟨rfl, hname⟩ := h
    have hreport := Report.const name
    rwa [Constant.ofName_stored hname] at hreport

theorem Term.report_events {ts : List Term} (h : ts.all (Term.isBare isStoredName)) :
  List.Forall₂ Term.Report ts (ts.map Term.event)
  := by
  rw [List.forall₂_map_right_iff, List.forall₂_same]
  intro t ht
  apply report_event (List.all_eq_true.mp h t ht)

namespace Formula

mutual

/-- A regular formula is reported by its events. -/
theorem report_events {q : String → Bool} :
  ∀ {f : Formula}, f.isRegular isStoredName q → f.Report f.events
  | .atom a, h => by
      obtain ⟨name, ts⟩ := a
      simp only [isRegular, Bool.and_eq_true] at h
      have hreport := Report.atom name (Term.report_events h.2)
      rwa [Atom.ofName, toLower_of_stored h.1] at hreport
  | .negation f, h => .negation (report_events h)
  | .conjunction fs, h => .conjunction (reportAll_eventsAll h)
  | .equality l r, h => by
      simp only [isRegular, Bool.and_eq_true] at h
      exact .equality (Term.report_event h.1) (Term.report_event h.2)
  | .universal vs f, h => by
      simp only [isRegular, Bool.and_eq_true] at h
      have hlist := TypedList.report_events .variable .typedList
        (TypedList.ne_nil_of_mem_groups vs)
      have hreport := Report.universal hlist (report_events h.2)
      rwa [TypedList.toVariables_ofVariables h.1] at hreport
  | .conditional c e, h => by
      simp only [isRegular, Bool.and_eq_true] at h
      exact .conditional (report_events h.1) (report_events h.2)

theorem reportAll_eventsAll {q : String → Bool} :
  ∀ {fs : List Formula}, areRegular isStoredName q fs → ReportAll fs (eventsAll fs)
  | [], _ => .nil
  | f :: fs, h => by
      simp only [areRegular, Bool.and_eq_true] at h
      exact .cons (report_events h.1) (reportAll_eventsAll h.2)

end

end Formula

end PlanLang
