import Mathlib
import PlanLang.Proofs.Builder.Success

/-!
# The terms in what is built

The terms in the frames of a builder are those of its finished values, from left to right.  As long
as nothing but types is taken, they are the terms that have been put on the stack, in this order.
-/

namespace PlanLang

/-! ### Terms of formulas and frames -/

namespace Formula

mutual

/-- The lists of terms in a formula, from left to right: the arguments of its atoms, the sides of
its equalities, and the variables that its universal formulas bind. -/
def termLists : Formula → List (List Term)
  | atom a => [a.terms]
  | negation f => termLists f
  | conjunction fs => termListsAll fs
  | equality l r => [[l, r]]
  | universal vs f => vs.map .var :: termLists f
  | conditional c e => termLists c ++ termLists e

/-- The lists of terms in the formulas of a list. -/
def termListsAll : List Formula → List (List Term)
  | [] => []
  | f :: fs => termLists f ++ termListsAll fs

end

theorem termListsAll_eq (fs : List Formula) :
  termListsAll fs = fs.flatMap termLists
  := by
  induction fs with
  | nil => rfl
  | cons f fs ih => rw [termListsAll, ih, List.flatMap_cons]

end Formula

namespace Frame

/-- The lists of terms in a frame.  A term on its own is a list of one. -/
def termLists : Frame → List (List Term)
  | opened _ => []
  | ty _ => []
  | term t => [[t]]
  | atom a => [a.terms]
  | formula f => f.termLists

/-- The terms in a frame, from left to right. -/
def terms (f : Frame) : List Term :=
  f.termLists.flatten

theorem termLists_of_formula? {f : Frame} {g : Formula} (h : f.formula? = some g) :
  f.termLists = g.termLists
  := by
  cases f with
  | atom a =>
    cases h
    rfl
  | formula g' =>
    cases h
    rfl
  | _ => contradiction

theorem flatMap_termLists_of_formula? {fs : List Frame} {gs : List Formula}
    (h : fs.map formula? = gs.map some) :
  fs.flatMap termLists = gs.flatMap Formula.termLists
  := by
  induction fs generalizing gs with
  | nil =>
    obtain rfl := List.map_eq_nil_iff.mp h.symm
    rfl
  | cons f fs ih =>
    obtain ⟨g, gs, rfl, hg, hgs⟩ := List.map_eq_cons_iff.mp h.symm
    rw [List.flatMap_cons, List.flatMap_cons, termLists_of_formula? hg.symm, ih hgs.symm]

theorem flatMap_terms (fs : List Frame) :
  fs.flatMap terms = (fs.flatMap termLists).flatten
  := by
  rw [← List.flatMap_id, List.flatMap_assoc]
  simp only [List.flatMap_id]
  rfl

theorem terms_of_formula? {f : Frame} {g : Formula} (h : f.formula? = some g) :
  f.terms = g.termLists.flatten
  := by
  rw [terms, termLists_of_formula? h]

theorem flatMap_terms_term (ts : List Term) :
  (ts.map term).flatMap terms = ts
  := by
  rw [List.flatMap_map]
  exact List.flatMap_singleton' ts

end Frame

/-! ### Terms without their types -/

/-- The term without its type. -/
def Term.bare : Term → Term
  | .var v => .var ⟨v.name, none⟩
  | .const c => .const ⟨c.name, none⟩

theorem Term.bare_withType (ty : Ty) (t : Term) :
  (t.withType ty).bare = t.bare
  := by
  cases t <;> rfl

/-- The terms in frames without their types, from the bottom to the top and from left to right. -/
def Frame.bareTerms (fs : List Frame) : List Term :=
  (fs.reverse.flatMap terms).map Term.bare

namespace Frame

theorem bareTerms_append (fs gs : List Frame) :
  bareTerms (fs ++ gs) = bareTerms gs ++ bareTerms fs
  := by
  simp [bareTerms]

theorem bareTerms_cons (f : Frame) (fs : List Frame) :
  bareTerms (f :: fs) = bareTerms fs ++ f.terms.map Term.bare
  := by
  simp [bareTerms]

theorem bareTerms_map_term (ts : List Term) :
  bareTerms (ts.map term) = (ts.map Term.bare).reverse
  := by
  rw [bareTerms, ← List.map_reverse, flatMap_terms_term, List.map_reverse]

theorem bareTerms_eq_nil {fs : List Frame} (h : ∀ f ∈ fs, f.terms = []) :
  bareTerms fs = []
  := by
  simpa [bareTerms] using h

end Frame

/-- What parts make up has the terms of the parts, in the same order. -/
theorem Opening.Assembles.terms_eq {T : Option Ty} {o : Opening} {parts : List Frame} {f : Frame}
    (h : o.Assembles T parts f) :
  f.terms.map Term.bare = (parts.flatMap Frame.terms).map Term.bare
  := by
  cases h with
  | either t ts => simp [Frame.terms, Frame.termLists]
  | atom name ts =>
    rw [Frame.flatMap_terms_term]
    simp [Frame.terms, Frame.termLists]
  | negation hp =>
    rw [List.flatMap_singleton, Frame.terms_of_formula? hp]
    rfl
  | conjunction hps =>
    rw [Frame.flatMap_terms, Frame.flatMap_termLists_of_formula? hps, ← Formula.termListsAll_eq]
    rfl
  | equality l r => rfl
  | @universal vs p g hp =>
    have hbound : (vs.map (Frame.term <| .var ·)).flatMap Frame.terms = vs.map .var := by
      rw [← Frame.flatMap_terms_term (vs.map .var), List.map_map]
      rfl
    rw [List.flatMap_append, List.flatMap_singleton, hbound, Frame.terms_of_formula? hp]
    simp [Frame.terms, Frame.termLists, Formula.termLists, Term.bare, Variable.withDefault]
  | conditional hp hq =>
    rw [List.flatMap_cons, List.flatMap_singleton, Frame.terms_of_formula? hp,
      Frame.terms_of_formula? hq, ← List.flatten_append]
    rfl

/-! ### Terms of runs -/

namespace Operation

/-- The term that an operation puts on the stack, if it does: a variable or a constant without a
type, its name in lower case and without the question marks in front. -/
def term? : Operation → Option Term
  | pushVariable name =>
    some (.var ⟨(String.ofList (name.toList.dropWhile (· = '?'))).toLower, none⟩)
  | pushConstant name => some (.const ⟨name.toLower, none⟩)
  | _ => none

end Operation

/-- No value has been taken that is not a type. -/
def Answer.takesTypesOnly : Answer → Bool
  | done | ty _ | types _ | consts [] | vars [] | formula none => true
  | _ => false

namespace Operation

/-- An operation that goes well and takes nothing but types keeps the terms there are and adds its
own behind them. -/
theorem Succeeds.bareTerms_eq {T : Option Ty} {op : Operation} {a : Answer} {fs fs' : List Frame}
    (h : op.Succeeds T a fs fs') (ha : a.takesTypesOnly) :
  Frame.bareTerms fs' = Frame.bareTerms fs ++ op.term?.toList
  := by
  cases h with
  | pushPrimitive name fs => rw [Frame.bareTerms_cons]; rfl
  | pushVariable name fs => rw [Frame.bareTerms_cons]; rfl
  | pushConstant name fs => rw [Frame.bareTerms_cons]; rfl
  | begin s fs => rw [Frame.bareTerms_cons]; rfl
  | checkEmpty label => rfl
  | nameAtom name habove below =>
    rw [Frame.bareTerms_append, Frame.bareTerms_append, Frame.bareTerms_cons, Frame.bareTerms_cons]
    simp [Frame.terms, Frame.termLists, Operation.term?]
  | @annotate ty run hrun huntyped below hbelow =>
    have hbare : (run.map (Term.withType ty)).map Term.bare = run.map Term.bare := by
      rw [List.map_map]
      exact List.map_congr_left fun t _ => t.bare_withType ty
    rw [Frame.bareTerms_append, Frame.bareTerms_append, Frame.bareTerms_map_term,
      Frame.bareTerms_map_term, hbare]
    exact (List.append_nil _).symm
  | finish hinnermost hparts =>
    rw [hinnermost.frames_eq, Frame.bareTerms_cons, Frame.bareTerms_append, Frame.bareTerms_cons,
      hparts.terms_eq]
    simp [Frame.bareTerms, Frame.terms, Frame.termLists, Operation.term?]
  | takeType t fs =>
    rw [Frame.bareTerms_cons]
    simp [Frame.terms, Frame.termLists, Operation.term?]
  | takeTypes ts hbelow =>
    have htypes : Frame.bareTerms (ts.map .ty).reverse = [] := by
      apply Frame.bareTerms_eq_nil
      simp [Frame.terms, Frame.termLists]
    rw [Frame.bareTerms_append, htypes]
    simp [Operation.term?]
  | takeConstants cs hbelow =>
    cases cs with
    | nil => exact (List.append_nil _).symm
    | cons c cs => contradiction
  | takeVariables vs hbelow =>
    cases vs with
    | nil => exact (List.append_nil _).symm
    | cons v vs => contradiction
  | takeNoFormula => rfl
  | _ => contradiction

theorem bareTerms_runAll {T : Option Ty} {ops : List Operation} {fs : List Frame}
    (hok : ∀ e ∈ trace ⟨T, fs⟩ ops, ∃ a, e.2 = .ok a ∧ a.takesTypesOnly) :
  Frame.bareTerms (runAll ⟨T, fs⟩ ops).frames = Frame.bareTerms fs ++ ops.filterMap term?
  := by
  induction ops generalizing fs with
  | nil => exact (List.append_nil _).symm
  | cons op ops ih =>
    obtain ⟨a, ha, htypes⟩ := hok _ List.mem_cons_self
    obtain ⟨fs', hop⟩ := exists_succeeds_of_ok ha
    rw [hop.trace_cons, List.forall_mem_cons] at hok
    have hterms : (op :: ops).filterMap term? = op.term?.toList ++ ops.filterMap term? := by
      rw [List.filterMap_cons]
      cases op.term? <;> rfl
    rw [hop.runAll_cons, ih hok.2, hop.bareTerms_eq htypes, hterms, List.append_assoc]

/-- In a run from the empty builder that goes well and takes nothing but types, no term is lost or
duplicated, and none changes its place: those in the frames, from the bottom to the top and from
left to right, are those that have been put on the stack, one after the other. -/
theorem terms_runAll (T : Option Ty) (ops : List Operation)
    (hok : ∀ e ∈ trace (.new T) ops, ∃ a, e.2 = .ok a ∧ a.takesTypesOnly) :
  ((runAll (.new T) ops).frames.reverse.flatMap Frame.terms).map Term.bare
    = ops.filterMap term?
  := bareTerms_runAll hok

/-- A goal with a typed variable and every kind of formula. -/
theorem terms_runAll_goal :
  let ops : List Operation :=
    [begin .universal, pushVariable "??X", pushPrimitive "Block", takeType,
      annotate (.primitive "block"), begin .conditional, begin .equality, pushVariable "?x",
      pushConstant "A", finish .equality, begin .conjunction, begin .negation, begin .atom,
      nameAtom "On", pushConstant "B", pushVariable "?x", finish .atom, finish .negation,
      finish .conjunction, finish .conditional, finish .universal, pushConstant "C"]
  (∀ e ∈ trace (.new none) ops, ∃ a, e.2 = .ok a ∧ a.takesTypesOnly) ∧
  ((runAll (.new none) ops).frames.reverse.flatMap Frame.terms).map Term.bare =
    [.var ⟨"x", none⟩, .var ⟨"x", none⟩, .const ⟨"a", none⟩, .const ⟨"b", none⟩, .var ⟨"x", none⟩,
      .const ⟨"c", none⟩]
  := by
  intro ops
  have hok : ∀ e ∈ trace (.new none) ops, ∃ a, e.2 = .ok a ∧ a.takesTypesOnly := by
    have htrace : trace (.new none) ops = (ops.take 3).map (·, .ok .done) ++
        (takeType, .ok (.ty (.primitive "block"))) :: (ops.drop 4).map (·, .ok .done) := by
      cbv
    rw [htrace]
    simp [ops, Answer.takesTypesOnly]
  refine ⟨hok, (terms_runAll none ops hok).trans ?_⟩
  cbv

end Operation

end PlanLang
