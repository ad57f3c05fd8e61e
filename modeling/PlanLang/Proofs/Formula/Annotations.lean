import Mathlib
import PlanLang.Proofs.Formula.Spelling

/-!
# Annotations of variables

Neighbours of the same type share one annotation in the text of a list of variables.  Where the
variables without a type come last, the annotations tell the type of each of them: it is the first
one that stands behind it.
-/

namespace PlanLang

/-! ### Annotations -/

namespace Variable

/-- The type that is written after a variable that other variables follow, if there is one. -/
def shownType (v : Variable) (following : List Variable) : Option Ty :=
  if following.head?.bind ty = v.ty then none else v.ty

/-- What is written as a type after each variable of a list. -/
def annotations : List Variable → List (Option Ty)
  | [] => []
  | v :: vs => v.shownType vs :: annotations vs

/-- The text of a variable and of the type that is written after it. -/
def annotatedText (v : Variable) (shown : Option Ty) : String :=
  v.text ++ shown.elim "" fun t => " - " ++ t.text

theorem typeText_eq (v : Variable) (following : List Variable) :
  v.text ++ v.typeText following = v.annotatedText (v.shownType following)
  := by
  rw [typeText, annotatedText, shownType]
  cases v.ty with
  | none => simp
  | some t =>
    simp only
    split <;> rfl

theorem typeLexemes_eq (v : Variable) (following : List Variable) :
  v.typeLexemes following = (v.shownType following).elim [] fun t => .dash :: t.lexemes
  := by
  rw [typeLexemes, shownType]
  cases v.ty with
  | none => simp
  | some t =>
    simp only
    split <;> rfl

/-- A list of variables is written one after the other, each with its annotation. -/
theorem listText_eq (vs : List Variable) :
  listText vs = " ".intercalate (List.zipWith annotatedText vs (annotations vs))
  := by
  induction vs with
  | nil => rfl
  | cons v vs ih =>
    cases vs with
    | nil => rw [listText, typeText_eq]; simp [annotations]
    | cons w vs =>
      rw [listText, typeText_eq, ih]
      simp only [annotations, List.zipWith_cons_cons, String.intercalate_cons_cons]

/-- The first annotation in a list is the type of the first variable. -/
theorem findSome?_annotations {vs : List Variable} (h : typedFirst vs) :
  (annotations vs).findSome? id = vs.head?.bind ty
  := by
  induction vs with
  | nil => rfl
  | cons v vs ih =>
    rw [typedFirst, Bool.and_eq_true, Bool.or_eq_true] at h
    rw [annotations, List.findSome?_cons, id, ih h.2, shownType, List.head?_cons, Option.bind_some]
    by_cases hnext : vs.head?.bind ty = v.ty
    · rw [if_pos hnext, hnext]
    · rw [if_neg hnext]
      cases hty : v.ty with
      | some t => rfl
      | none =>
        -- no variable behind `v` has a type
        have hnone : vs.all (·.ty.isNone) := by simpa [hty] using h.1
        cases vs with
        | nil => rfl
        | cons w vs =>
          rw [List.all_cons, Bool.and_eq_true] at hnone
          exact Option.isNone_iff_eq_none.mp hnone.1

theorem annotations_drop (vs : List Variable) (i : Nat) :
  annotations (vs.drop i) = (annotations vs).drop i
  := by
  induction i generalizing vs with
  | zero => rfl
  | succ i ih =>
    cases vs with
    | nil => rfl
    | cons v vs => exact ih vs

theorem typedFirst_drop {vs : List Variable} (h : typedFirst vs) (i : Nat) :
  typedFirst (vs.drop i)
  := by
  induction i generalizing vs with
  | zero => exact h
  | succ i ih =>
    cases vs with
    | nil => rfl
    | cons v vs =>
      rw [typedFirst, Bool.and_eq_true] at h
      exact ih h.2

/-- The type of a variable is the first annotation that stands behind it. -/
theorem ty_eq_findSome? {vs : List Variable} (h : typedFirst vs) {i : Nat} {v : Variable}
    (hi : vs[i]? = some v) :
  v.ty = ((annotations vs).drop i).findSome? id
  := by
  rw [← annotations_drop, findSome?_annotations (typedFirst_drop h i), List.head?_drop, hi,
    Option.bind_some]

/-- Variables are determined by their names and annotations. -/
theorem eq_of_annotations {vs ws : List Variable} (hvs : typedFirst vs) (hws : typedFirst ws)
    (hname : vs.map name = ws.map name) (hannotations : annotations vs = annotations ws) :
  vs = ws
  := by
  have hlength : vs.length = ws.length := by simpa using congrArg List.length hname
  apply List.ext_getElem hlength
  intro i hv hw
  have hty : vs[i].ty = ws[i].ty := by
    rw [ty_eq_findSome? hvs (List.getElem?_eq_getElem hv),
      ty_eq_findSome? hws (List.getElem?_eq_getElem hw), hannotations]
  have hnamei : vs[i].name = ws[i].name := by
    have hget := congrArg (·[i]?) hname
    simpa [hv, hw] using hget
  rw [show vs[i] = ⟨vs[i].name, vs[i].ty⟩ from rfl, hnamei, hty]

end Variable

/-! ### Texts -/

theorem names_append_closing_inj {names names' : List String} {ls ms : List Lexeme}
    (h : names.map .name ++ Lexeme.closing :: ls = names'.map .name ++ Lexeme.closing :: ms) :
  names = names' ∧ ls = ms
  := by
  induction names generalizing names' with
  | nil =>
    cases names' with
    | nil => exact ⟨rfl, (List.cons.inj h).2⟩
    | cons name' names' => simp [Lexeme.closing, Lexeme.name] at h
  | cons name names ih =>
    cases names' with
    | nil => simp [Lexeme.closing, Lexeme.name] at h
    | cons name' names' =>
      obtain ⟨hname, hrest⟩ := List.cons.inj h
      obtain ⟨rfl, rfl⟩ := ih hrest
      cases hname
      exact ⟨rfl, rfl⟩

/-- The lexemes of a type tell the type and where they end. -/
theorem Ty.lexemes_append_inj {s t : Ty} {ls ms : List Lexeme}
    (h : s.lexemes ++ ls = t.lexemes ++ ms) :
  s = t ∧ ls = ms
  := by
  rw [lexemes, lexemes] at h
  cases hs : s.primitiveName? with
  | some n =>
    cases ht : t.primitiveName? with
    | some m =>
      rw [hs, ht] at h
      cases h
      exact ⟨(eq_primitive hs).trans (eq_primitive ht).symm, rfl⟩
    | none =>
      rw [hs, ht] at h
      simp [Lexeme.opening, Lexeme.name] at h
  | none =>
    cases ht : t.primitiveName? with
    | some m =>
      rw [hs, ht] at h
      simp [Lexeme.opening, Lexeme.name] at h
    | none =>
      rw [hs, ht] at h
      simp only [List.cons_append, List.append_assoc, List.nil_append, List.cons.injEq,
        true_and] at h
      obtain ⟨hnames, hrest⟩ := names_append_closing_inj h
      exact ⟨eq_of_names hnames, hrest⟩

namespace Variable

/-- What follows an annotation does not begin with a dash. -/
theorem head?_lexemes_ne_dash {vs : List Variable} (h : typedFirst vs) :
  Lexeme.dash ∉ ((TypedList.ofVariables vs).lexemes .var).head?
  := by
  cases vs with
  | nil => exact nofun
  | cons v vs =>
    rw [TypedList.lexemes_ofVariables_cons h]
    exact nofun

/-- The lexemes of a list of variables tell the names and annotations. -/
theorem annotations_of_lexemes {vs ws : List Variable} (hvs : typedFirst vs) (hws : typedFirst ws)
    (h : (TypedList.ofVariables vs).lexemes .var = (TypedList.ofVariables ws).lexemes .var) :
  vs.map name = ws.map name ∧ annotations vs = annotations ws
  := by
  induction vs generalizing ws with
  | nil =>
    cases ws with
    | nil => exact ⟨rfl, rfl⟩
    | cons w ws =>
      rw [TypedList.lexemes_ofVariables_cons hws] at h
      contradiction
  | cons v vs ih =>
    cases ws with
    | nil =>
      rw [TypedList.lexemes_ofVariables_cons hvs] at h
      contradiction
    | cons w ws =>
      rw [TypedList.lexemes_ofVariables_cons hvs, TypedList.lexemes_ofVariables_cons hws,
        typeLexemes_eq, typeLexemes_eq, List.cons.injEq] at h
      obtain ⟨hname, hrest⟩ := h
      rw [typedFirst, Bool.and_eq_true] at hvs hws
      have hv := head?_lexemes_ne_dash hvs.2
      have hw := head?_lexemes_ne_dash hws.2
      have hname' : v.name = w.name := by simpa [Lexeme.var] using hname
      have hshown : v.shownType vs = w.shownType ws ∧
          (TypedList.ofVariables vs).lexemes .var = (TypedList.ofVariables ws).lexemes .var := by
        cases ha : v.shownType vs with
        | none =>
          cases hb : w.shownType ws with
          | none =>
            rw [ha, hb] at hrest
            exact ⟨rfl, hrest⟩
          | some t =>
            rw [ha, hb] at hrest
            rw [show (TypedList.ofVariables vs).lexemes .var = _ from hrest] at hv
            exact absurd rfl hv
        | some s =>
          cases hb : w.shownType ws with
          | none =>
            rw [ha, hb] at hrest
            rw [show (TypedList.ofVariables ws).lexemes .var = _ from hrest.symm] at hw
            exact absurd rfl hw
          | some t =>
            rw [ha, hb] at hrest
            obtain ⟨rfl, hend⟩ := Ty.lexemes_append_inj (List.cons.inj hrest).2
            exact ⟨rfl, hend⟩
      obtain ⟨hnames, hannotations⟩ := ih hvs.2 hws.2 hshown.2
      rw [List.map_cons, List.map_cons, annotations, annotations, hname', hnames, hshown.1,
        hannotations]
      exact ⟨rfl, rfl⟩

/-- Where the names are words, the text of a list of variables tells the variables. -/
theorem listText_inj {vs ws : List Variable} (hvs : areListed isWord isWord vs)
    (hws : areListed isWord isWord ws) (h : listText vs = listText ws) :
  vs = ws
  := by
  have hlexemes :
      (TypedList.ofVariables vs).lexemes .var = (TypedList.ofVariables ws).lexemes .var := by
    rw [← tokenize_spells (spells_listText hvs), h, tokenize_spells (spells_listText hws)]
  rw [areListed, Bool.and_eq_true] at hvs hws
  obtain ⟨hname, hannotations⟩ := annotations_of_lexemes hvs.1 hws.1 hlexemes
  apply eq_of_annotations hvs.1 hws.1 hname hannotations

end Variable

end PlanLang
