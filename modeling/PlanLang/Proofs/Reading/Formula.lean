import PlanLang.Proofs.Formula.Grammar
import PlanLang.Proofs.Reading.TypedList
import PlanLang.Proofs.Written.Formula
import PlanLang.Reader.Formula

/-!
# Reading goals and effects

In front of what a formula is written as, the readers of goals and effects read it and report the
formula, if it can be a goal or an effect.
-/

namespace PlanLang

/-! ### Words that are not names of atoms -/

/-- A name that in lower case is none of some words is none of them in another case either. -/
theorem Lexeme.isName_name {name : String} {words : List String}
    (hwords : ∀ word ∈ words, word.toLower = word) (h : name.toLower ∉ words) :
  ∀ word ∈ words, (Lexeme.name name).isName word = false
  := by
  intro word hword
  have hne : name.toLower ≠ word := by
    rintro rfl
    contradiction
  have hsame : sameWord name word = false := by
    rw [sameWord, hwords word hword]
    simpa using hne
  exact hsame

/-- The gate allows whatever a formula may need. -/
structure Gate.AllowsFormulas (gate : Gate) : Prop where
  typing : gate.allows .typing
  equality : gate.allows .equality
  universalPreconditions : gate.allows .universalPreconditions
  conditionalEffects : gate.allows .conditionalEffects

namespace Formula

/-- What a formula among others is written as is not longer than what all of them are. -/
theorem Writing.length_lexemes_le {w : Writing} {ws : List Writing} (h : w ∈ ws) :
  w.lexemes.length ≤ (ws.flatMap lexemes).length
  := (List.sublist_flatten_of_mem (List.mem_map_of_mem h)).length_le

/-- There is room for a formula only where there is room for a parenthesis. -/
theorem Written.exists_eq_succ {f : Formula} {ls : List Lexeme} {es : List Event}
    (h : f.Written ls es) {n : Nat} (hn : ls.length ≤ n) :
  ∃ m, n = m + 1
  := by
  obtain ⟨l, tail, rfl, -⟩ := h.exists_lexemes
  rw [List.length_cons] at hn
  exact ⟨n - 1, by omega⟩

end Formula

namespace Reader

open Formula (Written Writing)

variable {gate : Gate}

/-- Formulas are read one by one. -/
theorem reads_repeated_formulas {r : Reader Unit} {ws : List Writing}
    (hws : ∀ w ∈ ws, Written w.formula w.lexemes w.events)
    (h : ∀ w ∈ ws, ∀ rest, r.Reads gate w.lexemes rest w.events) (rest : List Lexeme) :
  (repeated r).Reads gate (ws.flatMap Writing.lexemes ++ [.closing]) rest
    (ws.flatMap Writing.events)
  := by
  apply reads_repeated
  · intro w hw
    obtain ⟨l, ls, hls, -⟩ := (hws w hw).exists_lexemes
    exact ⟨_, l :: ls, hls, nofun⟩
  · exact h

/-! ### Terms and atoms -/

theorem reads_term (t : WrittenTerm) (rest : List Lexeme) :
  term.Reads gate [t.lexeme] rest [t.event]
  := by
  cases t with
  | var name =>
    apply (reads_accept (kind_of_lexeme rfl) _).bind_cons
    rintro _ ⟨s, rfl, hs⟩
    rw [WrittenTerm.event, ← Lexeme.denotes_var.name_eq hs]
    apply reads_named
  | const name =>
    apply (reads_accept_none (kind_ne_of_lexeme (by rintro ⟨⟩)) _).bind_nil
    rintro _ rfl
    apply reads_expect_named Lexeme.denotes_name

theorem reads_groundTerm {t : WrittenTerm} (hconst : t.term.isConst) (rest : List Lexeme) :
  groundTerm.Reads gate [t.lexeme] rest [t.event]
  := by
  cases t with
  | var name => contradiction
  | const name => apply reads_expect_named Lexeme.denotes_name

section

variable {argument : Reader Unit} {ts : List WrittenTerm}
  (harg : ∀ t ∈ ts, ∀ rest, argument.Reads gate [t.lexeme] rest [t.event])
include harg

/-- An atom is read after its opening parenthesis. -/
theorem reads_atom (name : String) (rest : List Lexeme) :
  (atom argument).Reads gate (.name name :: (ts.map WrittenTerm.lexeme ++ [.closing])) rest
    (Event.within (.shape .atom) (.name .predicate name.toLower :: ts.map WrittenTerm.event))
  := by
  apply (reads_expect (kind_of_lexeme rfl) _ _).bind_cons
  intro t ht
  rw [← Lexeme.denotes_name.name_eq ht]
  apply reads_within
  apply ReadsTo.named_bind
  rw [List.map_eq_flatMap, List.map_eq_flatMap]
  apply reads_repeated
  · intro t _
    use t.lexeme, [], rfl
    cases t <;> exact nofun
  · exact harg

/-- A negated atom is read after the word `not`. -/
theorem reads_negatedAtom (name : String) (rest : List Lexeme) :
  (negatedAtom argument).Reads gate
    (.opening :: .name name :: (ts.map WrittenTerm.lexeme ++ [.closing]) ++ [.closing]) rest
    (Event.within (.shape .negation)
      (Event.within (.shape .atom) (.name .predicate name.toLower :: ts.map WrittenTerm.event)))
  := by
  apply reads_within
  apply (reads_opening _).bind_cons
  intro _ _
  apply (reads_atom harg name _).bind_closing

/-- A list that does not begin with one of the words is an atom. -/
theorem reads_refuse_atom {name : String} {words : List String}
    (hwords : ∀ word ∈ words, (Lexeme.name name).isName word = false) (rest : List Lexeme) :
  Reads (do refuse words; atom argument) gate
    (.name name :: (ts.map WrittenTerm.lexeme ++ [.closing])) rest
    (Event.within (.shape .atom) (.name .predicate name.toLower :: ts.map WrittenTerm.event))
  := by
  apply (reads_refuse hwords _).bind_nil
  intro _ _
  apply reads_atom harg

end

/-! ### Goals -/

/-- A universal formula is read after the word `forall`. -/
theorem reads_universal (hgate : gate.AllowsFormulas) {body : Reader Unit} {l : WrittenList}
    (hl : l.IsProper) {ls rest : List Lexeme} {es : List Event}
    (h : body.Reads gate ls (.closing :: rest) es) :
  (universal body).Reads gate
    (.opening :: (l.lexemes .var ++ .closing :: (ls ++ [.closing]))) rest
    (Event.within (.shape .universal) (l.events .variable .typedList ++ es))
  := by
  apply reads_within
  apply (reads_opening _).bind_cons
  intro _ _
  have hlist := reads_variableList hgate.typing hl.names_ne_nil (ls ++ [.closing] ++ rest)
  have hall := hlist.bind fun _ _ => h.bind_closing
  rwa [List.append_assoc] at hall

/-- A goal is read from what it is written as. -/
theorem reads_nestedWithin_goal (hgate : gate.AllowsFormulas) {f : Formula} {ls : List Lexeme}
    {es : List Event} (h : f.Written ls es) (hgoal : f.isGoal) {n : Nat} (hn : ls.length ≤ n)
    (rest : List Lexeme) :
  (nestedWithin goalContents n).Reads gate ls rest es
  := by
  obtain ⟨n, rfl⟩ := h.exists_eq_succ hn
  induction h generalizing n rest with
  | atom name hts =>
    have hwords := Lexeme.isName_name (by decide +kernel) (of_decide_eq_true hgoal)
    apply reads_nestedWithin
    apply ReadsTo.ite_not_found rfl (kind_ne_of_lexeme (by nofun))
    apply ReadsTo.ite_not_found rfl (isName_of_lexeme (hwords "and" (by decide)))
    apply ReadsTo.ite_not_found rfl (isName_of_lexeme (hwords "not" (by decide)))
    apply ReadsTo.ite_not_found rfl (isName_of_lexeme (hwords "forall" (by decide)))
    apply reads_refuse_atom fun t _ => reads_term t
    intro word hword
    apply hwords word (List.mem_append_right _ hword)
  | negation h ih =>
    simp only [List.length_cons, List.length_append] at hn
    obtain ⟨n, rfl⟩ := h.exists_eq_succ (n := n) (by omega)
    apply reads_nestedWithin
    apply ReadsTo.ite_not_found rfl (kind_ne_of_lexeme (by nofun))
    apply ReadsTo.ite_not_found rfl (isName_of_lexeme (by decide +kernel))
    apply ReadsTo.ite_found (isName_of_lexeme (by decide +kernel))
    apply reads_within
    apply ReadsTo.bind_closing
    apply ih hgoal
    omega
  | @conjunction ws hws ih =>
    rw [List.length_cons, List.length_cons, List.length_append] at hn
    rw [Formula.isGoal, Formula.areGoals_eq, List.all_map, List.all_eq_true] at hgoal
    apply reads_nestedWithin
    apply ReadsTo.ite_not_found rfl (kind_ne_of_lexeme (by nofun))
    apply ReadsTo.ite_found (isName_of_lexeme (by decide +kernel))
    apply reads_within
    apply reads_repeated_formulas hws
    intro w hw rest
    have hlength := Writing.length_lexemes_le hw
    obtain ⟨n, rfl⟩ := (hws w hw).exists_eq_succ (n := n) (by omega)
    apply ih w hw (hgoal w hw)
    omega
  | @equality l r hl hr =>
    apply reads_nestedWithin
    apply ReadsTo.ite_found (kind_of_lexeme rfl)
    apply (reads_need hgate.equality _ _).bind_nil
    intro _ _
    apply reads_within
    apply (reads_term l _).bind fun _ _ => (reads_term r _).bind_closing
  | universal hl h ih =>
    simp only [List.length_cons, List.length_append] at hn
    obtain ⟨n, rfl⟩ := h.exists_eq_succ (n := n) (by omega)
    apply reads_nestedWithin
    apply ReadsTo.ite_not_found rfl (kind_ne_of_lexeme (by nofun))
    apply ReadsTo.ite_not_found rfl (isName_of_lexeme (by decide +kernel))
    apply ReadsTo.ite_not_found rfl (isName_of_lexeme (by decide +kernel))
    apply ReadsTo.ite_found (isName_of_lexeme (by decide +kernel))
    apply (reads_need hgate.universalPreconditions _ _).bind_nil
    intro _ _
    apply reads_universal hgate hl
    apply ih hgoal
    omega
  | conditional => contradiction

theorem reads_goal (hgate : gate.AllowsFormulas) {f : Formula} {ls : List Lexeme}
    {es : List Event} (h : f.Written ls es) (hf : f.isGoal) (rest : List Lexeme) :
  goal.Reads gate ls rest es
  := by
  apply reads_nested
  intro n hn
  apply reads_nestedWithin_goal hgate h hf hn

/-! ### Effects -/

/-- A literal is read after its opening parenthesis.  If it is not negated, its name is none of
the words, with which other lists begin. -/
theorem reads_literalContents (words : List String) {f : Formula} {ls : List Lexeme}
    {es : List Event} (h : f.Written (.opening :: ls) es) (hf : f.isLiteralExcept words)
    (hnot : "not" ∈ words) (hunsupported : ∀ word ∈ unsupportedEffects, word ∈ words)
    (hlower : ∀ word ∈ words, word.toLower = word) (rest : List Lexeme) :
  literalContents.Reads gate ls rest es
  := by
  cases h with
  | atom name hts =>
    have hwords := Lexeme.isName_name hlower (of_decide_eq_true hf)
    apply ReadsTo.ite_not_found rfl (isName_of_lexeme (hwords "not" hnot))
    apply reads_refuse_atom fun t _ => reads_term t
    intro word hword
    apply hwords word (hunsupported word hword)
  | negation h =>
    cases h with
    | atom name hts =>
      apply ReadsTo.ite_found (isName_of_lexeme (by decide +kernel))
      apply reads_negatedAtom fun t _ => reads_term t
    | _ => contradiction
  | _ => contradiction

/-- The effect of a conditional is read from what it is written as. -/
theorem reads_conditionalEffect {f : Formula} {ls : List Lexeme} {es : List Event}
    (h : f.Written ls es) (hf : f.isConditionalEffect) (rest : List Lexeme) :
  conditionalEffect.Reads gate ls rest es
  := by
  obtain ⟨l, tail, rfl, -⟩ := h.exists_lexemes
  apply (reads_opening _).bind_cons
  intro _ _
  cases h with
  | @conjunction ws hws =>
    rw [Formula.isConditionalEffect, List.all_map, List.all_eq_true] at hf
    apply ReadsTo.ite_found (isName_of_lexeme (by decide +kernel))
    apply reads_within
    apply reads_repeated_formulas hws
    intro w hw rest
    have hwritten := hws w hw
    obtain ⟨l, tail, hls, -⟩ := hwritten.exists_lexemes
    rw [hls] at hwritten ⊢
    apply (reads_opening _).bind_cons
    intro _ _
    apply reads_literalContents Formula.reservedInConjunctions hwritten (hf w hw) (by decide)
      (by decide) (by decide +kernel)
  | atom name hts =>
    have hand : (Lexeme.name name).isName "and" = false := by
      apply Lexeme.isName_name _ (of_decide_eq_true hf)
      · decide
      · decide +kernel
    apply ReadsTo.ite_not_found rfl (isName_of_lexeme hand)
    apply reads_literalContents Formula.reservedInConditionals (.atom name hts) hf (by decide)
      (by decide) (by decide +kernel)
  | negation h =>
    apply ReadsTo.ite_not_found rfl (isName_of_lexeme (by decide +kernel))
    apply reads_literalContents Formula.reservedInConditionals (.negation h) hf (by decide)
      (by decide) (by decide +kernel)
  | _ => contradiction

/-- An effect is read from what it is written as. -/
theorem reads_nestedWithin_effect (hgate : gate.AllowsFormulas) {f : Formula} {ls : List Lexeme}
    {es : List Event} (h : f.Written ls es) (heffect : f.isEffect) {n : Nat} (hn : ls.length ≤ n)
    (rest : List Lexeme) :
  (nestedWithin effectContents n).Reads gate ls rest es
  := by
  obtain ⟨n, rfl⟩ := h.exists_eq_succ hn
  induction h generalizing n rest with
  | atom name hts =>
    have hwords := Lexeme.isName_name (by decide +kernel) (of_decide_eq_true heffect)
    apply reads_nestedWithin
    apply ReadsTo.ite_not_found rfl (isName_of_lexeme (hwords "and" (by decide)))
    apply ReadsTo.ite_not_found rfl (isName_of_lexeme (hwords "forall" (by decide)))
    apply ReadsTo.ite_not_found rfl (isName_of_lexeme (hwords "when" (by decide)))
    apply reads_literalContents Formula.reservedInEffects (.atom name hts) heffect (by decide)
      (by decide) (by decide +kernel)
  | @negation f ls es h =>
    have hliteral : f.negation.isLiteralExcept Formula.reservedInEffects := by
      cases f <;> first | rfl | contradiction
    apply reads_nestedWithin
    apply ReadsTo.ite_not_found rfl (isName_of_lexeme (by decide +kernel))
    apply ReadsTo.ite_not_found rfl (isName_of_lexeme (by decide +kernel))
    apply ReadsTo.ite_not_found rfl (isName_of_lexeme (by decide +kernel))
    apply reads_literalContents Formula.reservedInEffects (.negation h) hliteral (by decide)
      (by decide) (by decide +kernel)
  | @conjunction ws hws ih =>
    rw [List.length_cons, List.length_cons, List.length_append] at hn
    rw [Formula.isEffect, Formula.areEffects_eq, List.all_map, List.all_eq_true] at heffect
    apply reads_nestedWithin
    apply ReadsTo.ite_found (isName_of_lexeme (by decide +kernel))
    apply reads_within
    apply reads_repeated_formulas hws
    intro w hw rest
    have hlength := Writing.length_lexemes_le hw
    obtain ⟨n, rfl⟩ := (hws w hw).exists_eq_succ (n := n) (by omega)
    apply ih w hw (heffect w hw)
    omega
  | equality => contradiction
  | universal hl h ih =>
    simp only [List.length_cons, List.length_append] at hn
    obtain ⟨n, rfl⟩ := h.exists_eq_succ (n := n) (by omega)
    apply reads_nestedWithin
    apply ReadsTo.ite_not_found rfl (isName_of_lexeme (by decide +kernel))
    apply ReadsTo.ite_found (isName_of_lexeme (by decide +kernel))
    apply (reads_need hgate.conditionalEffects _ _).bind_nil
    intro _ _
    apply reads_universal hgate hl
    apply ih heffect
    omega
  | conditional hc he =>
    rw [Formula.isEffect, Bool.and_eq_true] at heffect
    apply reads_nestedWithin
    apply ReadsTo.ite_not_found rfl (isName_of_lexeme (by decide +kernel))
    apply ReadsTo.ite_not_found rfl (isName_of_lexeme (by decide +kernel))
    apply ReadsTo.ite_found (isName_of_lexeme (by decide +kernel))
    apply (reads_need hgate.conditionalEffects _ _).bind_nil
    intro _ _
    apply reads_within
    apply (reads_goal hgate hc heffect.1 _).bind
    intro _ _
    apply (reads_conditionalEffect he heffect.2 _).bind_closing

theorem reads_effect (hgate : gate.AllowsFormulas) {f : Formula} {ls : List Lexeme}
    {es : List Event} (h : f.Written ls es) (hf : f.isEffect) (rest : List Lexeme) :
  effect.Reads gate ls rest es
  := by
  apply reads_nested
  intro n hn
  apply reads_nestedWithin_effect hgate h hf hn

end Reader

end PlanLang
