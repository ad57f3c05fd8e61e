import PlanLang.Proofs.Formula.Spelling
import PlanLang.Proofs.Token.Word

/-!
# Typed lists as they are written

Names can be written in any case, the names of a type in any order and several times, and names that
are neighbours can share a type in one group or in several.  What is written stands for types and
items all the same: the type of a group is the set of its names in lower case, and each item has the
type of its group.
-/

namespace PlanLang

/-! ### Types -/

/-- A type as it is written: a name, or one or more names after the word `either`. -/
inductive WrittenType where
  | primitive (name : String)
  | either (first : String) (others : List String)
deriving DecidableEq

namespace WrittenType

/-- The names that are written. -/
def names : WrittenType → List String
  | primitive name => [name]
  | either first others => first :: others

/-- The type that is written. -/
def ty : WrittenType → Ty
  | primitive name => .primitive name
  | either first others => others.foldl .insert (.primitive first)

/-- The lexemes of a type. -/
def lexemes : WrittenType → List Lexeme
  | primitive name => [.name name]
  | either first others =>
    .opening :: .name "either" :: ((first :: others).map .name ++ [.closing])

/-- The events for a type. -/
def events : WrittenType → List Event
  | primitive name => [.name .type name.toLower]
  | either first others =>
    Event.within (.shape .either) ((first :: others).map fun name => .name .type name.toLower)

end WrittenType

theorem Ty.primitive_toLower (name : String) :
  primitive name.toLower = primitive name
  := by
  apply eq_of_names
  rw [names_primitive, names_primitive, toLower_toLower]

theorem Ty.insert_toLower (t : Ty) (name : String) :
  t.insert name.toLower = t.insert name
  := by
  apply eq_of_names
  rw [names_insert, names_insert, toLower_toLower]

namespace WrittenType

/-- The names of a type are those that are written, in lower case. -/
theorem mem_names_ty (w : WrittenType) (m : String) :
  m ∈ w.ty.names ↔ ∃ n ∈ w.names, m = n.toLower
  := by
  cases w with
  | primitive name => simp [ty, names, Ty.names_primitive]
  | either first others =>
    rw [ty, Ty.mem_names_foldl_insert, Ty.names_primitive, List.mem_singleton, names,
      List.exists_mem_cons_iff, or_comm]

/-- A type is reported by its names in lower case. -/
theorem report (w : WrittenType) :
  w.ty.Report w.events
  := by
  cases w with
  | primitive name =>
    rw [ty, ← Ty.primitive_toLower]
    exact .primitive name.toLower
  | either first others =>
    have heither : Ty.either? ((first :: others).map String.toLower)
        = some (either first others).ty := by
      simp [Ty.either?, ty, List.foldl_map, Ty.insert_toLower, Ty.primitive_toLower]
    have hreport := Ty.Report.either heither
    rw [List.map_map] at hreport
    exact hreport

end WrittenType

/-! ### Typed lists -/

/-- A typed list as it is written: groups of names, each with a type, and then the names without
one. -/
structure WrittenList where
  groups : List (List String × WrittenType)
  trailing : List String
deriving DecidableEq

namespace WrittenList

/-- The names that are written. -/
def names (l : WrittenList) : List String :=
  l.groups.flatMap Prod.fst ++ l.trailing

/-- The items that the names stand for, each with the type of its group, and with the type `T` those
that are in no group. -/
def items {α : Type} (item : String → Option Ty → α) (T : Option Ty) (l : WrittenList) : List α :=
  l.groups.flatMap (fun (names, t) => names.map fun name => item name.toLower (some t.ty)) ++
    l.trailing.map fun name => item name.toLower T

/-- The variables of a typed list. -/
def vars (T : Option Ty) (l : WrittenList) : List Variable :=
  l.items Variable.mk T

/-- The constants of a typed list. -/
def consts (T : Option Ty) (l : WrittenList) : List Constant :=
  l.items Constant.mk T

/-- The groups and the names behind them, in lower case. -/
def typedList (l : WrittenList) : TypedList where
  groups := l.groups.map fun (names, t) => (names.map String.toLower, t.ty)
  trailing := l.trailing.map String.toLower

/-- The lexemes of a typed list, where `item` gives those of its names. -/
def lexemes (item : String → Lexeme) (l : WrittenList) : List Lexeme :=
  l.groups.flatMap (fun (names, t) => names.map item ++ .dash :: t.lexemes) ++ l.trailing.map item

/-- The events for a typed list. -/
def events (r : Role) (g : Construct) (l : WrittenList) : List Event :=
  l.groups.flatMap
      (fun (names, t) =>
        Event.within g (names.map (fun name => .name r name.toLower) ++ t.events)) ++
    l.trailing.map fun name => .name r name.toLower

/-- The groups have names, and all names are words. -/
structure IsProper (l : WrittenList) : Prop where
  names_ne_nil : ∀ group ∈ l.groups, group.1 ≠ []
  isWord : ∀ name ∈ l.names, isWord name

/-- The lexemes of the first group come first. -/
theorem lexemes_cons (item : String → Lexeme) (names : List String) (t : WrittenType)
    (groups : List (List String × WrittenType)) (trailing : List String) :
  lexemes item ⟨(names, t) :: groups, trailing⟩ =
    names.map item ++ .dash :: t.lexemes ++ lexemes item ⟨groups, trailing⟩
  := by
  rw [lexemes, List.flatMap_cons, List.append_assoc]
  rfl

/-- The events of the first group come first. -/
theorem events_cons (r : Role) (g : Construct) (names : List String) (t : WrittenType)
    (groups : List (List String × WrittenType)) (trailing : List String) :
  events r g ⟨(names, t) :: groups, trailing⟩ =
    Event.within g (names.map (fun name => .name r name.toLower) ++ t.events) ++
      events r g ⟨groups, trailing⟩
  := by
  rw [events, List.flatMap_cons, List.append_assoc]
  rfl

/-- A typed list is reported by its names in lower case. -/
theorem report (r : Role) (g : Construct) {l : WrittenList}
    (h : ∀ group ∈ l.groups, group.1 ≠ []) :
  l.typedList.Report r g (l.events r g)
  := by
  obtain ⟨groups, trailing⟩ := l
  have hmap : ∀ names : List String, names.map (fun name => Event.name r name.toLower)
      = (names.map String.toLower).map (.name r) := by
    intro names
    rw [List.map_map]
    rfl
  induction groups with
  | nil =>
    rw [events, List.flatMap_nil, List.nil_append, hmap]
    exact .trailing _
  | cons group groups ih =>
    obtain ⟨names, t⟩ := group
    rw [List.forall_mem_cons] at h
    rw [events_cons, hmap]
    have hnames : names.map String.toLower ≠ [] := by simpa using h.1
    exact .group hnames t.report (ih h.2)

/-! ### The items of a typed list -/

/-- Items that are made from names and then given the type of their group are those of the list. -/
theorem items_typedList {α : Type} {make : String → α} {withType : Ty → α → α}
    {item : String → Option Ty → α} {l : WrittenList}
    (h : ∀ name ∈ l.names, make name.toLower = item name.toLower none)
    (htype : ∀ t name, withType t (item name none) = item name (some t)) :
  l.typedList.items make withType = l.items item none
  := by
  rw [names, List.forall_mem_append] at h
  obtain ⟨hgroups, htrailing⟩ := h
  rw [TypedList.items, items, typedList, List.flatMap_map, List.map_map]
  congr 1
  · apply List.flatMap_congr
    rintro ⟨names, t⟩ hgroup
    simp only [List.map_map, List.map_inj_left]
    intro name hname
    have hmake := hgroups name (List.mem_flatMap.mpr ⟨(names, t), hgroup, hname⟩)
    rw [Function.comp_apply, hmake, htype]
  · rw [List.map_inj_left]
    intro name hname
    exact htrailing name hname

theorem toVariables_typedList {l : WrittenList} (h : ∀ name ∈ l.names, isWord name) :
  l.typedList.toVariables = l.vars none
  := by
  apply items_typedList
  · intro name hname
    exact Variable.ofName_stored (isStoredName_of_isLowerWord (isLowerWord_toLower (h name hname)))
  · intro t name
    rfl

theorem toConstants_typedList (l : WrittenList) :
  l.typedList.toConstants = l.consts none
  := by
  apply items_typedList
  · intro name _
    rw [Constant.ofName, toLower_toLower]
  · intro t name
    rfl

/-- The items in no group are those to which a default type goes. -/
theorem map_items {α : Type} {withDefault : Option Ty → α → α} {item : String → Option Ty → α}
    (h : ∀ T name ty, withDefault T (item name ty) = item name (ty.or T)) (T : Option Ty)
    (l : WrittenList) :
  (l.items item none).map (withDefault T) = l.items item T
  := by
  simp [items, List.map_flatMap, Function.comp_def, h]

theorem vars_withDefault (T : Option Ty) (l : WrittenList) :
  (l.vars none).map (Variable.withDefault T) = l.vars T
  := map_items (fun _ _ _ => rfl) T l

theorem consts_withDefault (T : Option Ty) (l : WrittenList) :
  (l.consts none).map (Constant.withDefault T) = l.consts T
  := map_items (fun _ _ _ => rfl) T l

end WrittenList

/-! ### Types and typed lists in their canonical form -/

/-- A type written with its names in increasing order. -/
def Ty.written (t : Ty) : WrittenType :=
  match t.primitiveName? with
  | some name => .primitive name
  | none => .either (t.names.head t.names_ne_nil) t.names.tail

theorem Ty.ty_written (t : Ty) :
  t.written.ty = t
  := by
  rw [written]
  cases hname : t.primitiveName? with
  | some name => exact (eq_primitive hname).symm
  | none =>
    have hnames := t.either?_names
    rw [← List.cons_head_tail t.names_ne_nil] at hnames
    exact Option.some.inj hnames

theorem Ty.lexemes_written (t : Ty) :
  t.written.lexemes = t.lexemes
  := by
  rw [written, lexemes]
  cases t.primitiveName? with
  | some name => rfl
  | none => rw [WrittenType.lexemes, List.cons_head_tail]

theorem Ty.events_written (t : Ty) :
  t.written.events = t.events
  := by
  have hlower := t.names_lower
  rw [written, events]
  cases hname : t.primitiveName? with
  | some name =>
    rw [names_of_primitiveName? hname, List.forall_mem_singleton] at hlower
    simp only [WrittenType.events, hlower]
  | none =>
    simp only [WrittenType.events, List.cons_head_tail]
    congr 1
    rw [List.map_inj_left]
    intro name hname
    rw [hlower name hname]

namespace TypedList

/-- A typed list with its types written in their canonical form. -/
def written (l : TypedList) : WrittenList where
  groups := l.groups.map fun (names, t) => (names, t.written)
  trailing := l.trailing

theorem lexemes_written (item : String → Lexeme) (l : TypedList) :
  l.written.lexemes item = l.lexemes item
  := by
  rw [WrittenList.lexemes, written, lexemes, List.flatMap_map]
  simp only [Ty.lexemes_written]

/-- The names of a typed list. -/
def names (l : TypedList) : List String :=
  l.groups.flatMap Prod.fst ++ l.trailing

theorem names_written (l : TypedList) :
  l.written.names = l.names
  := by
  rw [WrittenList.names, written, names, List.flatMap_map]

theorem events_written (r : Role) (g : Construct) {l : TypedList}
    (h : ∀ name ∈ l.names, name.toLower = name) :
  l.written.events r g = l.events r g
  := by
  rw [names, List.forall_mem_append] at h
  obtain ⟨hgroups, htrailing⟩ := h
  have hmap : ∀ names : List String, (∀ name ∈ names, name.toLower = name) →
      names.map (fun name => Event.name r name.toLower) = names.map (.name r) := by
    intro names hnames
    rw [List.map_inj_left]
    intro name hname
    rw [hnames name hname]
  rw [WrittenList.events, written, events, List.flatMap_map, hmap l.trailing htrailing]
  congr 1
  apply List.flatMap_congr
  rintro ⟨names, t⟩ hgroup
  simp only [Ty.events_written]
  rw [hmap]
  intro name hname
  exact hgroups name (List.mem_flatMap.mpr ⟨(names, t), hgroup, hname⟩)

theorem typedList_written {l : TypedList} (h : ∀ name ∈ l.names, name.toLower = name) :
  l.written.typedList = l
  := by
  rw [names, List.forall_mem_append] at h
  obtain ⟨groups, trailing⟩ := l
  obtain ⟨hgroups, htrailing⟩ := h
  have hmap : ∀ names : List String, (∀ name ∈ names, name.toLower = name) →
      names.map String.toLower = names := by
    intro names hnames
    rw [List.map_congr_left hnames, List.map_id']
  rw [WrittenList.typedList, written, List.map_map, hmap trailing htrailing, TypedList.mk.injEq]
  refine ⟨?_, rfl⟩
  rw [List.map_congr_left (g := id), List.map_id]
  rintro ⟨names, t⟩ hgroup
  have hnames := hmap names fun name hname =>
    hgroups name (List.mem_flatMap.mpr ⟨(names, t), hgroup, hname⟩)
  simp only [Function.comp_apply, hnames, Ty.ty_written, id]

theorem mem_names_cons {v : Variable} {l : TypedList} {name : String}
    (h : name ∈ (cons v l).names) :
  name = v.name ∨ name ∈ l.names
  := by
  obtain ⟨groups, trailing⟩ := l
  cases hty : v.ty with
  | none =>
    simp only [cons, hty, names, List.mem_append, List.mem_cons] at h ⊢
    tauto
  | some t =>
    cases groups with
    | nil => simpa [cons, hty, names] using h
    | cons group groups =>
      obtain ⟨first, t'⟩ := group
      by_cases ht : t = t'
      · simpa [cons, hty, ht, names] using h
      · simpa [cons, hty, ht, names] using h

/-- What holds of the names of variables holds of the names in their typed list. -/
theorem forall_names_ofVariables {p : String → Prop} {vs : List Variable}
    (h : ∀ v ∈ vs, p v.name) :
  ∀ name ∈ (ofVariables vs).names, p name
  := by
  induction vs with
  | nil => simp [ofVariables, names]
  | cons v vs ih =>
    rw [List.forall_mem_cons] at h
    intro name hname
    rcases mem_names_cons hname with rfl | hname
    · exact h.1
    · exact ih h.2 name hname

/-- Variables whose names are words in lower case are written as their typed list. -/
theorem written_ofVariables {q : String → Bool} {vs : List Variable}
    (h : Variable.areListed isLowerWord q vs) :
  (ofVariables vs).written.IsProper ∧ (ofVariables vs).written.vars none = vs ∧
    (ofVariables vs).written.events .variable .typedList =
      (ofVariables vs).events .variable .typedList
  := by
  have hwords : ∀ name ∈ (ofVariables vs).names, isLowerWord name := by
    apply forall_names_ofVariables
    intro v hv
    rw [Variable.areListed, Bool.and_eq_true, List.all_eq_true] at h
    have hname := h.2 v hv
    rw [Bool.and_eq_true] at hname
    exact hname.1
  have hlower := fun name hname => toLower_of_isLowerWord (hwords name hname)
  have hwords' : ∀ name ∈ (ofVariables vs).written.names, isWord name := by
    intro name hname
    rw [names_written] at hname
    exact isWord_of_isLowerWord (hwords name hname)
  have hproper : ∀ group ∈ (ofVariables vs).written.groups, group.1 ≠ [] := by
    intro group hgroup
    obtain ⟨group', hgroup', rfl⟩ := List.mem_map.mp hgroup
    exact ne_nil_of_mem_groups vs group' hgroup'
  refine ⟨⟨hproper, hwords'⟩, ?_, events_written _ _ hlower⟩
  rw [← WrittenList.toVariables_typedList hwords', typedList_written hlower]
  exact toVariables_ofVariables (Variable.areListed_mono (fun _ => isStoredName_of_isLowerWord)
    (fun _ hn => hn) h)

end TypedList

end PlanLang
