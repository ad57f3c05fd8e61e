import PlanLang.Proofs.Draft.Assembly

/-!
# The names in reports

What is reported with names as they are stored has these names and no others.  Its terms have no
types, and in each of its lists the items that have a type come first, because that is all that a
report can say.
-/

namespace PlanLang

/-- If the event gives a name, then `p` holds of it. -/
def Event.isNamed (p : String → Bool) : Event → Bool
  | .name _ text => p text
  | _ => true

@[simp]
theorem Event.all_isNamed_within (p : String → Bool) (c : Construct) (es : List Event) :
  (within c es).all (isNamed p) = es.all (isNamed p)
  := by
  simp [within, isNamed]

@[simp]
theorem Event.all_isNamed_map (p : String → Bool) (r : Role) (names : List String) :
  (names.map (Event.name r)).all (isNamed p) = names.all p
  := by
  rw [List.all_map]
  rfl

variable {p : String → Bool}

/-! ### Types and terms -/

/-- If `p` holds of the names of a type, then it does when others of which it holds are added. -/
theorem Ty.all_names_foldl_insert {names : List String} (hnames : ∀ n ∈ names, p n.toLower)
    {t : Ty} (ht : t.names.all p) :
  (names.foldl insert t).names.all p
  := by
  rw [List.all_eq_true]
  intro n hn
  rcases mem_names_foldl_insert.mp hn with ⟨m, hm, rfl⟩ | hn
  · exact hnames m hm
  · exact List.all_eq_true.mp ht n hn

theorem Ty.Report.all_names (hp : ∀ n, p n → isStoredName n) {t : Ty} {es : List Event}
    (h : t.Report es) (hes : es.all (Event.isNamed p)) :
  t.names.all p
  := by
  have hlower : ∀ name, p name → p name.toLower := by
    intro name hname
    rwa [toLower_of_stored (hp name hname)]
  cases h with
  | primitive name =>
    have hname : p name := by simpa [Event.isNamed] using hes
    rw [names_primitive, List.all_cons, hlower name hname]
    rfl
  | @either names _ h =>
    rw [Event.all_isNamed_within, Event.all_isNamed_map, List.all_eq_true] at hes
    cases names with
    | nil => contradiction
    | cons name names =>
      obtain rfl := Option.some.inj h
      rw [List.forall_mem_cons] at hes
      apply all_names_foldl_insert
      · intro n hn
        apply hlower n (hes.2 n hn)
      · rw [names_primitive, List.all_cons, hlower name hes.1]
        rfl

theorem Term.Report.isBare (hp : ∀ n, p n → isStoredName n) {t : Term} {e : Event}
    (h : t.Report e) (he : e.isNamed p) :
  t.isBare p
  := by
  cases h with
  | var name =>
    rw [Variable.ofName_stored (hp name he)]
    exact he
  | const name =>
    rw [Constant.ofName_stored (hp name he)]
    exact he

theorem Term.all_isBare_of_report (hp : ∀ n, p n → isStoredName n) {ts : List Term}
    {es : List Event} (h : List.Forall₂ Term.Report ts es) (hes : es.all (Event.isNamed p)) :
  ts.all (Term.isBare p)
  := by
  induction h with
  | nil => rfl
  | cons h _ ih =>
    rw [List.all_cons, Bool.and_eq_true] at hes ⊢
    exact ⟨h.isBare hp hes.1, ih hes.2⟩

/-! ### Typed lists -/

/-- The constants can be written as a typed list: those with a type come first.  Of the names of
the constants `p` holds, and of those of their types `q`. -/
def Constant.areListed (p q : String → Bool) (cs : List Constant) : Bool :=
  Variable.areListed p q (cs.map fun c => ⟨c.name, c.ty⟩)

/-- Of the name of a declared type and of those of its parent `p` holds. -/
def TypeDeclaration.isNamed (p : String → Bool) (d : TypeDeclaration) : Bool :=
  p d.name && d.parent.names.all p

namespace TypedList

/-- Of all names in a typed list `p` holds. -/
def isNamed (p : String → Bool) (l : TypedList) : Bool :=
  l.groups.all (fun (names, t) => names.all p && t.names.all p) && l.trailing.all p

theorem Report.isNamed (hp : ∀ n, p n → isStoredName n) {r : Role} {g : Construct} {l : TypedList}
    {es : List Event} (h : l.Report r g es) (hes : es.all (Event.isNamed p)) :
  l.isNamed p
  := by
  induction h with
  | trailing names => rwa [Event.all_isNamed_map] at hes
  | group _ ht _ ih =>
    rw [List.all_append, Event.all_isNamed_within, List.all_append, Event.all_isNamed_map] at hes
    simp only [Bool.and_eq_true] at hes
    obtain ⟨⟨hnames, hty⟩, hrest⟩ := hes
    have hrest := ih hrest
    simp only [TypedList.isNamed, List.all_cons, Bool.and_eq_true] at hrest ⊢
    exact ⟨⟨⟨hnames, ht.all_names hp hty⟩, hrest.1⟩, hrest.2⟩

/-- What holds of each item that has a name and maybe a type of which `p` holds, holds of all items
of a typed list. -/
theorem all_items {α : Type} {item : String → α} {withType : Ty → α → α} {q : α → Bool}
    (hitem : ∀ name, p name → q (item name))
    (htyped : ∀ t name, t.names.all p → p name → q (withType t (item name)))
    {l : TypedList} (h : l.isNamed p) :
  (l.items item withType).all q
  := by
  rw [isNamed, Bool.and_eq_true, List.all_eq_true, List.all_eq_true] at h
  rw [List.all_eq_true]
  intro a ha
  rcases List.mem_append.mp ha with ha | ha
  · obtain ⟨⟨names, t⟩, hgroup, ha⟩ := List.mem_flatMap.mp ha
    obtain ⟨name, hname, rfl⟩ := List.mem_map.mp ha
    obtain ⟨hnames, ht⟩ := (Bool.and_eq_true _ _).mp (h.1 _ hgroup)
    apply htyped t name ht (List.all_eq_true.mp hnames name hname)
  · obtain ⟨name, hname, rfl⟩ := List.mem_map.mp ha
    apply hitem name (h.2 name hname)

/-- Variables that are followed by variables without a type can be written if those that follow a
variable without a type have none. -/
theorem typedFirst_append {vs ws : List Variable} (hvs : ∀ v ∈ vs, v.ty.isSome)
    (hws : ∀ w ∈ ws, w.ty.isNone) :
  Variable.typedFirst (vs ++ ws)
  := by
  induction vs with
  | nil =>
    rw [List.nil_append]
    induction ws with
    | nil => rfl
    | cons w ws ih =>
      rw [List.forall_mem_cons] at hws
      rw [Variable.typedFirst, ih hws.2, List.all_eq_true.mpr hws.2, Bool.or_true]
      rfl
  | cons v vs ih =>
    rw [List.forall_mem_cons] at hvs
    rw [List.cons_append, Variable.typedFirst, hvs.1, ih hvs.2]
    rfl

theorem areListed_toVariables (hp : ∀ n, p n → isStoredName n) {l : TypedList} (h : l.isNamed p) :
  Variable.areListed p p l.toVariables
  := by
  rw [Variable.areListed, Bool.and_eq_true]
  constructor
  · apply typedFirst_append
    · intro v hv
      obtain ⟨group, -, hv⟩ := List.mem_flatMap.mp hv
      obtain ⟨name, -, rfl⟩ := List.mem_map.mp hv
      rfl
    · intro w hw
      obtain ⟨name, -, rfl⟩ := List.mem_map.mp hw
      rfl
  · apply all_items (p := p)
    · intro name hname
      simp [Variable.ofName_stored (hp name hname), hname]
    · intro t name ht hname
      simp only [Variable.ofName_stored (hp name hname), hname, Option.all_some, ht, Bool.and_self]
    · exact h

/-- The constants of a typed list have the names and types of the variables that it would have. -/
theorem map_toConstants (hp : ∀ n, p n → isStoredName n) {l : TypedList} (h : l.isNamed p) :
  l.toConstants.map (fun c => ⟨c.name, c.ty⟩) = l.toVariables
  := by
  rw [isNamed, Bool.and_eq_true, List.all_eq_true, List.all_eq_true] at h
  rw [toConstants, toVariables, items, items, List.map_append, List.map_flatMap, List.map_map]
  congr 1
  · apply List.flatMap_congr
    rintro ⟨names, t⟩ hgroup
    have hnames := List.all_eq_true.mp ((Bool.and_eq_true _ _).mp (h.1 _ hgroup)).1
    rw [List.map_map]
    apply List.map_congr_left
    intro name hname
    simp [Variable.ofName_stored (hp name (hnames name hname)),
      Constant.ofName_stored (hp name (hnames name hname))]
  · apply List.map_congr_left
    intro name hname
    simp [Variable.ofName_stored (hp name (h.2 name hname)),
      Constant.ofName_stored (hp name (h.2 name hname))]

theorem areListed_toConstants (hp : ∀ n, p n → isStoredName n) {l : TypedList} (h : l.isNamed p) :
  Constant.areListed p p l.toConstants
  := by
  rw [Constant.areListed, map_toConstants hp h]
  apply areListed_toVariables hp h

/-- The declared types have the names of the typed list; those without a parent derive from
`object`. -/
theorem all_toDeclarations (hp : ∀ n, p n → isStoredName n) (hobject : p "object") {l : TypedList}
    (h : l.isNamed p) :
  l.toDeclarations.all (TypeDeclaration.isNamed p)
  := by
  have hname : ∀ name, p name → p name.toLower := by
    intro name hname
    rwa [toLower_of_stored (hp name hname)]
  have hparent : Ty.object.names.all p := by
    rw [Ty.object, Ty.names_primitive, List.all_cons, hname _ hobject]
    rfl
  apply all_items (p := p)
  · intro name h
    rw [TypeDeclaration.isNamed, Bool.and_eq_true]
    exact ⟨hname name h, hparent⟩
  · intro t name ht h
    rw [TypeDeclaration.isNamed, Bool.and_eq_true]
    exact ⟨hname name h, ht⟩
  · exact h

end TypedList

/-! ### Formulas -/

namespace Formula

mutual

/-- A formula that is reported with stored names is regular. -/
theorem Report.isRegular (hp : ∀ n, p n → isStoredName n) :
  ∀ {f : Formula} {es : List Event}, f.Report es → es.all (Event.isNamed p) → f.isRegular p p
  | _, _, .atom name h, hes => by
      rw [Event.all_isNamed_within, List.all_cons, Bool.and_eq_true] at hes
      rw [Formula.isRegular, Bool.and_eq_true]
      refine ⟨?_, Term.all_isBare_of_report hp h hes.2⟩
      rw [Atom.ofName, toLower_of_stored (hp name hes.1)]
      exact hes.1
  | _, _, .negation h, hes => by
      rw [Event.all_isNamed_within] at hes
      exact h.isRegular hp hes
  | _, _, .conjunction h, hes => by
      rw [Event.all_isNamed_within] at hes
      exact h.areRegular hp hes
  | _, _, .equality hl hr, hes => by
      rw [Event.all_isNamed_within, List.all_cons, List.all_cons, Bool.and_eq_true,
        Bool.and_eq_true] at hes
      rw [Formula.isRegular, Bool.and_eq_true]
      exact ⟨hl.isBare hp hes.1, hr.isBare hp hes.2.1⟩
  | _, _, .universal hl h, hes => by
      rw [Event.all_isNamed_within, List.all_append, Bool.and_eq_true] at hes
      rw [Formula.isRegular, Bool.and_eq_true]
      exact ⟨TypedList.areListed_toVariables hp (hl.isNamed hp hes.1), h.isRegular hp hes.2⟩
  | _, _, .conditional hc he, hes => by
      rw [Event.all_isNamed_within, List.all_append, Bool.and_eq_true] at hes
      rw [Formula.isRegular, Bool.and_eq_true]
      exact ⟨hc.isRegular hp hes.1, he.isRegular hp hes.2⟩

theorem ReportAll.areRegular (hp : ∀ n, p n → isStoredName n) :
  ∀ {fs : List Formula} {es : List Event}, ReportAll fs es → es.all (Event.isNamed p) →
    Formula.areRegular p p fs
  | _, _, .nil, _ => rfl
  | _, _, .cons h hs, hes => by
      rw [List.all_append, Bool.and_eq_true] at hes
      rw [Formula.areRegular, Bool.and_eq_true]
      exact ⟨h.isRegular hp hes.1, hs.areRegular hp hes.2⟩

end

theorem ReportOption.isRegular (hp : ∀ n, p n → isStoredName n) {f : Option Formula}
    {es : List Event} (h : ReportOption f es) (hes : es.all (Event.isNamed p)) :
  ∀ g ∈ f, g.isRegular p p
  := by
  cases h with
  | none => exact nofun
  | some h =>
    rintro _ ⟨⟩
    apply h.isRegular hp hes

end Formula

end PlanLang
