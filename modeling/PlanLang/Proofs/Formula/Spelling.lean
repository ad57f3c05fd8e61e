import PlanLang.Formula.Text
import PlanLang.Proofs.Report
import PlanLang.Proofs.Token.Lexeme

/-!
# How formulas are spelled

The text of a formula whose names are words is cut into the lexemes that its form suggests.  The
variables that are bound are spelled as the typed list that they make up.
-/

namespace PlanLang

/-- A word in lower case is a stored name. -/
theorem isStoredName_of_isLowerWord {word : String} (h : isLowerWord word) :
  isStoredName word
  := by
  obtain ⟨c, cs, hcs, hc, -⟩ := Lexer.exists_of_isWord (isWord_of_isLowerWord h)
  have hmark : c ≠ '?' := Lexer.ne_of_isAlpha hc rfl
  rw [isStoredName, toLower_of_isLowerWord h, hcs]
  simpa using hmark

/-! ### The lexemes of types, terms and formulas -/

/-- The lexemes of a type: its name, or `either` and all its names in parentheses. -/
def Ty.lexemes (t : Ty) : List Lexeme :=
  match t.primitiveName? with
  | some n => [.name n]
  | none => .opening :: .name "either" :: (t.names.map .name ++ [.closing])

/-- The lexeme of a term. -/
def Term.lexeme : Term → Lexeme
  | .var v => .var v.name
  | .const c => .name c.name

/-- The lexemes of a typed list whose names have the lexemes that `item` gives. -/
def TypedList.lexemes (item : String → Lexeme) (l : TypedList) : List Lexeme :=
  l.groups.flatMap (fun (names, t) => names.map item ++ .dash :: t.lexemes) ++
    l.trailing.map item

namespace Formula

mutual

/-- The lexemes of a formula. -/
def lexemes : Formula → List Lexeme
  | atom a => .opening :: .name a.name :: (a.terms.map Term.lexeme ++ [.closing])
  | negation f => .opening :: .name "not" :: (lexemes f ++ [.closing])
  | conjunction fs => .opening :: .name "and" :: (lexemesAll fs ++ [.closing])
  | equality l r => [.opening, .equals, l.lexeme, r.lexeme, .closing]
  | universal vs f =>
    .opening :: .name "forall" :: .opening ::
      ((TypedList.ofVariables vs).lexemes .var ++ .closing :: (lexemes f ++ [.closing]))
  | conditional c e => .opening :: .name "when" :: (lexemes c ++ (lexemes e ++ [.closing]))

/-- The lexemes of formulas, one after the other. -/
def lexemesAll : List Formula → List Lexeme
  | [] => []
  | f :: fs => lexemes f ++ lexemesAll fs

end

end Formula

/-! ### Types and terms -/

/-- Texts with a blank between them have the lexemes of these texts. -/
theorem spells_intercalate {texts : List String} {ls : List Lexeme}
    (h : List.Forall₂ (fun text l => Spells text [l]) texts ls) :
  Spells (" ".intercalate texts) ls
  := by
  induction h with
  | nil => exact Spells.empty
  | @cons text l texts ls htext htexts ih =>
    cases htexts with
    | nil => rwa [String.intercalate_singleton]
    | cons hnext hrest =>
      rw [String.intercalate_cons_cons, String.append_assoc]
      apply htext.append ih.blank (isApart_append rfl (by decide) _)

/-- A text in parentheses. -/
theorem spells_parenthesized {s : String} {ls : List Lexeme} (h : Spells s ls) :
  Spells ("(" ++ s ++ ")") (.opening :: (ls ++ [.closing]))
  := h.opening.append .closing rfl

/-- A list in parentheses that begins with a word. -/
theorem spells_list (word : String) (hword : isWord word) {s : String} {ls : List Lexeme}
    (h : Spells s ls) :
  Spells ("(" ++ word ++ " " ++ s ++ ")") (.opening :: .name word :: (ls ++ [.closing]))
  := by
  have hwords := (Spells.name hword).append h.blank (isApart_append rfl (by decide) s)
  have hlist := spells_parenthesized hwords
  rwa [← String.append_assoc, ← String.append_assoc] at hlist

theorem forall₂_spells_names {names : List String} (h : names.all isWord) :
  List.Forall₂ (fun text l => Spells text [l]) names (names.map .name)
  := by
  rw [List.forall₂_map_right_iff, List.forall₂_same]
  intro name hname
  apply Spells.name (List.all_eq_true.mp h name hname)

theorem Ty.spells_text {t : Ty} (h : t.names.all isWord) :
  Spells t.text t.lexemes
  := by
  rw [text, lexemes]
  cases hname : t.primitiveName? with
  | some n =>
    apply Spells.name
    apply List.all_eq_true.mp h
    rw [names_of_primitiveName? hname]
    apply List.mem_cons_self
  | none => exact spells_list "either" rfl (spells_intercalate (forall₂_spells_names h))

theorem Term.spells_text {t : Term} (h : t.isBare isWord) :
  Spells t.text [t.lexeme]
  := by
  cases t with
  | var v =>
    rw [isBare, Bool.and_eq_true] at h
    apply Spells.var h.2
  | const c =>
    rw [isBare, Bool.and_eq_true] at h
    apply Spells.name h.2

theorem Atom.spells_text {a : Atom} (hname : isWord a.name)
    (hterms : a.terms.all (Term.isBare isWord)) :
  Spells a.text (.opening :: .name a.name :: (a.terms.map Term.lexeme ++ [.closing]))
  := by
  have hwords : Spells (" ".intercalate (a.name :: a.terms.map Term.text))
      (.name a.name :: a.terms.map Term.lexeme) := by
    apply spells_intercalate
    constructor
    · apply Spells.name hname
    rw [List.forall₂_map_left_iff, List.forall₂_map_right_iff, List.forall₂_same]
    intro t ht
    apply Term.spells_text (List.all_eq_true.mp hterms t ht)
  apply spells_parenthesized hwords

/-! ### Lists of variables -/

/-- The lexemes of the annotation after a variable. -/
def Variable.typeLexemes (v : Variable) (following : List Variable) : List Lexeme :=
  match v.ty with
  | none => []
  | some t => if following.head?.bind Variable.ty = some t then [] else .dash :: t.lexemes

theorem Variable.spells_typeText {v : Variable} (h : v.ty.all (·.names.all isWord))
    (following : List Variable) :
  Spells (v.typeText following) (v.typeLexemes following) ∧
    isApart (v.typeText following)
  := by
  rw [typeText, typeLexemes]
  cases hty : v.ty with
  | none => exact ⟨Spells.empty, rfl⟩
  | some t =>
    rw [hty] at h
    simp only
    split
    · exact ⟨Spells.empty, rfl⟩
    · have htype := Ty.spells_text (t := t) h
      have hdash := (Spells.dash.append htype.blank (isApart_append rfl (by decide) _)).blank
      rw [← String.append_assoc, ← String.append_assoc] at hdash
      exact ⟨hdash, isApart_append rfl (by decide) _⟩

/-- The type of the first group is that of the first variable. -/
theorem TypedList.head?_groups_ofVariables {vs : List Variable} (h : Variable.typedFirst vs) :
  (ofVariables vs).groups.head?.map Prod.snd = vs.head?.bind Variable.ty
  := by
  cases vs with
  | nil => rfl
  | cons v vs =>
    rw [Variable.typedFirst, Bool.and_eq_true, Bool.or_eq_true] at h
    rw [ofVariables, List.foldr_cons, ← ofVariables, cons, List.head?_cons, Option.bind_some]
    cases hty : v.ty with
    | none =>
      rw [hty] at h
      have hgroups : (ofVariables vs).groups = [] := by
        apply groups_ofVariables
        simpa using h.1
      simp only [hgroups]
      rfl
    | some t =>
      simp only
      split
      · rfl
      · split
        · rename_i ht
          rw [ht]
          rfl
        · rfl

/-- A variable in front is spelled with its annotation after it. -/
theorem TypedList.lexemes_ofVariables_cons {v : Variable} {vs : List Variable}
    (h : Variable.typedFirst (v :: vs)) :
  (ofVariables (v :: vs)).lexemes .var =
    .var v.name :: (v.typeLexemes vs ++ (ofVariables vs).lexemes .var)
  := by
  rw [Variable.typedFirst, Bool.and_eq_true, Bool.or_eq_true] at h
  rw [ofVariables, List.foldr_cons, ← ofVariables, cons, Variable.typeLexemes,
    ← head?_groups_ofVariables h.2]
  rcases hl : ofVariables vs with ⟨groups, trailing⟩
  cases hty : v.ty with
  | none =>
    rw [hty] at h
    have hgroups : (ofVariables vs).groups = [] := by
      apply groups_ofVariables
      simpa using h.1
    rw [hl] at hgroups
    obtain rfl : groups = [] := hgroups
    rfl
  | some t =>
    cases groups with
    | nil => simp [lexemes]
    | cons group groups =>
      obtain ⟨names, t'⟩ := group
      by_cases ht : t = t'
      · simp [lexemes, ht]
      · simp [lexemes, ht, Ne.symm ht]

/-- Variables of which those with a type come first are spelled as their typed list. -/
theorem Variable.spells_listText {vs : List Variable} (h : areListed isWord isWord vs) :
  Spells (listText vs) ((TypedList.ofVariables vs).lexemes .var)
  := by
  induction vs with
  | nil => exact Spells.empty
  | cons v vs ih =>
    rw [areListed, Bool.and_eq_true, List.all_cons, Bool.and_eq_true, Bool.and_eq_true] at h
    obtain ⟨hfirst, ⟨hname, hty⟩, hall⟩ := h
    obtain ⟨htype, hapart⟩ := spells_typeText hty vs
    rw [TypedList.lexemes_ofVariables_cons hfirst]
    have hone : Spells (v.text ++ v.typeText vs)
        (.var v.name :: v.typeLexemes vs) := (Spells.var hname).append htype hapart
    cases vs with
    | nil =>
      rw [listText]
      simpa [TypedList.ofVariables, TypedList.lexemes] using hone
    | cons w vs =>
      have hrest : areListed isWord isWord (w :: vs) := by
        rw [typedFirst, Bool.and_eq_true] at hfirst
        rw [areListed, hfirst.2, hall, Bool.and_self]
      rw [listText, String.append_assoc]
      apply hone.append (ih hrest).blank (isApart_append rfl (by decide) _)

/-! ### Formulas -/

namespace Formula

/-- The texts of formulas begin with a blank. -/
theorem isApart_textAll (fs : List Formula) :
  isApart (textAll fs)
  := by
  cases fs with
  | nil => rfl
  | cons f fs =>
    rw [textAll, String.append_assoc]
    apply isApart_append rfl (by decide)

mutual

/-- The text of a formula whose names are words is cut into its lexemes. -/
theorem spells_text :
  ∀ {f : Formula}, f.isRegular isWord isWord → Spells f.text f.lexemes
  | .atom a, h => by
      rw [isRegular, Bool.and_eq_true] at h
      apply Atom.spells_text h.1 h.2
  | .negation f, h => spells_list "not" rfl (spells_text h)
  | .conjunction fs, h => by
      have hword := (Spells.name (show isWord "and" from rfl)).append (spells_textAll h)
        (isApart_textAll fs)
      have hlist := spells_parenthesized hword
      rw [← String.append_assoc] at hlist
      exact hlist
  | .equality l r, h => by
      rw [isRegular, Bool.and_eq_true] at h
      have hterms := (Term.spells_text h.1).append (Term.spells_text h.2).blank
        (isApart_append rfl (by decide) _)
      have hequals := Spells.equals.append hterms.blank (isApart_append rfl (by decide) _)
      have hlist := spells_parenthesized hequals
      simp only [← String.append_assoc] at hlist
      exact hlist
  | .universal vs f, h => by
      rw [isRegular, Bool.and_eq_true] at h
      have hlist := spells_list "forall" rfl
        ((spells_parenthesized (Variable.spells_listText h.1)).append (spells_text h.2).blank
          (isApart_append rfl (by decide) _))
      have htext : text (.universal vs f) = "(" ++ "forall" ++ " " ++
          ("(" ++ Variable.listText vs ++ ")" ++ (" " ++ text f)) ++ ")" := by
        rw [text, show ") " = ")" ++ " " from rfl]
        simp only [← String.append_assoc]
        rfl
      rw [htext, lexemes]
      simpa only [List.cons_append, List.append_assoc, List.nil_append] using hlist
  | .conditional c e, h => by
      rw [isRegular, Bool.and_eq_true] at h
      have hlist := spells_list "when" rfl
        ((spells_text h.1).append (spells_text h.2).blank (isApart_append rfl (by decide) _))
      rw [List.append_assoc] at hlist
      simp only [← String.append_assoc] at hlist
      exact hlist

theorem spells_textAll :
  ∀ {fs : List Formula}, areRegular isWord isWord fs → Spells (textAll fs) (lexemesAll fs)
  | [], _ => Spells.empty
  | f :: fs, h => by
      rw [areRegular, Bool.and_eq_true] at h
      apply (spells_text h.1).blank.append (spells_textAll h.2) (isApart_textAll fs)

end

end Formula

end PlanLang
