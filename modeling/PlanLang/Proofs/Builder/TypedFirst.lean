import Mathlib
import PlanLang.Proofs.Builder.Terms
import PlanLang.Proofs.Formula.Annotations
import PlanLang.Proofs.Section.Report

/-!
# Typed terms first

A builder without a default type never has a term that has a type directly above one that has none.
So in each list of terms that is built or taken, those without a type come last, and the text of a
list of variables tells the type of each of them.
-/

namespace PlanLang

/-! ### Lists of terms -/

/-- The terms without a type come last. -/
def Term.TypedFirst (ts : List Term) : Prop :=
  ∃ typed untyped, ts = typed ++ untyped ∧ (∀ t ∈ typed, t.ty.isSome) ∧ ∀ t ∈ untyped, t.ty = none

theorem Term.typedFirst_iff_pairwise {ts : List Term} :
  TypedFirst ts ↔ ts.Pairwise fun t u => t.ty = none → u.ty = none
  := by
  constructor
  · rintro ⟨typed, untyped, rfl, htyped, huntyped⟩
    have hvacuous : ∀ t ∈ typed, ∀ u : Term, t.ty = none → u.ty = none := by
      intro t ht u hnone
      have hsome := htyped t ht
      rw [hnone] at hsome
      contradiction
    rw [List.pairwise_append]
    refine ⟨?_, ?_, fun t ht u _ => hvacuous t ht u⟩
    · exact List.pairwise_of_forall_mem_list fun t ht u _ => hvacuous t ht u
    · exact List.pairwise_of_forall_mem_list fun t _ u hu _ => huntyped u hu
  · intro h
    induction ts with
    | nil => exact ⟨[], [], rfl, nofun, nofun⟩
    | cons t ts ih =>
      rw [List.pairwise_cons] at h
      cases hty : t.ty with
      | none =>
        refine ⟨[], t :: ts, rfl, nofun, ?_⟩
        rw [List.forall_mem_cons]
        exact ⟨hty, fun u hu => h.1 u hu hty⟩
      | some ty =>
        obtain ⟨typed, untyped, rfl, htyped, huntyped⟩ := ih h.2
        refine ⟨t :: typed, untyped, rfl, ?_, huntyped⟩
        rw [List.forall_mem_cons]
        exact ⟨Option.isSome_of_eq_some hty, htyped⟩

theorem Variable.typedFirst_of_terms {vs : List Variable}
    (h : Term.TypedFirst (vs.map .var)) :
  typedFirst vs
  := by
  rw [Term.typedFirst_iff_pairwise, List.pairwise_map] at h
  induction h with
  | nil => rfl
  | @cons v vs hv hvs ih =>
    rw [typedFirst, ih, Bool.and_true, Bool.or_eq_true]
    cases hty : v.ty with
    | none =>
      right
      rw [List.all_eq_true]
      intro w hw
      exact Option.isNone_iff_eq_none.mpr (hv w hw hty)
    | some t => exact .inl rfl

/-! ### Answers -/

/-- The lists of terms in an answer. -/
def Answer.termLists : Answer → List (List Term)
  | done => []
  | ty _ => []
  | types _ => []
  | const c => [[.const c]]
  | consts cs => [cs.map .const]
  | vars vs => [vs.map .var]
  | predicate a => [a.terms]
  | formula none => []
  | formula (some f) => f.termLists

/-! ### Frames -/

/-- A frame may stand directly above another one: it is no term with a type if that is a term
without one. -/
def Frame.MayRestOn (above below : Frame) : Prop :=
  ∀ t u, above = .term t → below = .term u → u.ty = none → t.ty = none

/-- No term with a type is directly above one without a type, and in the lists of terms within the
frames those without a type come last. -/
structure Frame.Ordered (fs : List Frame) : Prop where
  chain : fs.IsChain MayRestOn
  typedFirst : ∀ f ∈ fs, ∀ ts ∈ f.termLists, Term.TypedFirst ts

namespace Frame

theorem mayRestOn_of_above {above : Frame} (h : above.term? = none) (below : Frame) :
  MayRestOn above below
  := by
  rintro t u rfl
  contradiction

theorem mayRestOn_of_below {below : Frame} (h : below.isUntyped = false) (above : Frame) :
  MayRestOn above below
  := by
  rintro t u - rfl hu
  rw [isUntyped, hu] at h
  contradiction

theorem mayRestOn_of_untyped {t : Term} (h : t.ty = none) (below : Frame) :
  MayRestOn (.term t) below
  := by
  rintro _ u ⟨⟩ - -
  exact h

theorem Ordered.of_suffix {fs fs' : List Frame} (h : Ordered fs) (hsuffix : fs' <:+ fs) :
  Ordered fs'
  := ⟨h.chain.suffix hsuffix, fun f hf => h.typedFirst f (hsuffix.mem hf)⟩

theorem Ordered.cons {f : Frame} {fs : List Frame} (h : Ordered fs)
    (hrest : ∀ g ∈ fs.head?, MayRestOn f g) (hf : ∀ ts ∈ f.termLists, Term.TypedFirst ts) :
  Ordered (f :: fs)
  := ⟨h.chain.cons hrest, List.forall_mem_cons.mpr ⟨hf, h.typedFirst⟩⟩

/-- Terms of which each may rest on the one before it. -/
theorem typedFirst_of_isChain {ts : List Term}
    (h : (ts.map term).IsChain fun below above => MayRestOn above below) :
  Term.TypedFirst ts
  := by
  have hterms : ts.IsChain fun t u => t.ty = none → u.ty = none := by
    rw [List.isChain_map] at h
    exact h.imp fun t u htu => htu u t rfl rfl
  have : IsTrans Term fun t u => t.ty = none → u.ty = none := ⟨fun _ _ _ hab hbc => hbc ∘ hab⟩
  exact Term.typedFirst_iff_pairwise.mpr (List.isChain_iff_pairwise.mp hterms)

/-- Terms that lie on top are in order from the bottom to the top. -/
theorem Ordered.typedFirst_of_terms {ts : List Term} {below : List Frame}
    (h : Ordered ((ts.map term).reverse ++ below)) :
  Term.TypedFirst ts
  := by
  have hchain := h.chain.left_of_append
  rw [List.isChain_reverse] at hchain
  exact typedFirst_of_isChain hchain

/-- An opening separates the frames above it from those below it. -/
theorem ordered_append_opened {above below : List Frame} {o : Opening} :
  Ordered (above ++ .opened o :: below) ↔ Ordered above ∧ Ordered below
  := by
  have hchain : (above ++ .opened o :: below).IsChain MayRestOn ↔
      above.IsChain MayRestOn ∧ below.IsChain MayRestOn := by
    have hopened : (Frame.opened o :: below).IsChain MayRestOn ↔ below.IsChain MayRestOn := by
      rw [List.isChain_cons]
      exact and_iff_right fun g _ => mayRestOn_of_above rfl g
    rw [List.isChain_append, hopened, List.head?_cons]
    refine and_congr_right fun _ => and_iff_left ?_
    rintro f - g ⟨⟩
    exact mayRestOn_of_below rfl f
  constructor
  · rintro ⟨h, hlists⟩
    rw [List.forall_mem_append, List.forall_mem_cons] at hlists
    exact ⟨⟨(hchain.mp h).1, hlists.1⟩, ⟨(hchain.mp h).2, hlists.2.2⟩⟩
  · rintro ⟨⟨habove, hlists⟩, hbelow, hlists'⟩
    refine ⟨hchain.mpr ⟨habove, hbelow⟩, ?_⟩
    rw [List.forall_mem_append, List.forall_mem_cons]
    exact ⟨hlists, nofun, hlists'⟩

/-- Terms with a type may stand on each other. -/
theorem Ordered.typed_append {ts : List Term} {below : List Frame} (h : Ordered below)
    (hbelow : ∀ f ∈ below.head?, f.isUntyped = false) (hts : ∀ t ∈ ts, t.ty.isSome) :
  Ordered (ts.map term ++ below)
  := by
  induction ts with
  | nil => exact h
  | cons t ts ih =>
    rw [List.forall_mem_cons] at hts
    refine (ih hts.2).cons ?_ ?_
    · intro g hg
      apply mayRestOn_of_below
      cases ts with
      | nil => exact hbelow g hg
      | cons u ts =>
        cases hg
        rw [isUntyped, ← Option.not_isSome, hts.2 u List.mem_cons_self]
        rfl
    · rw [termLists, List.forall_mem_singleton]
      exact typedFirst_of_isChain (List.isChain_singleton _)

end Frame

theorem Opening.Assembles.term?_eq_none {T : Option Ty} {o : Opening} {parts : List Frame}
    {f : Frame} (h : o.Assembles T parts f) :
  f.term? = none
  := by
  cases h <;> rfl

/-- What parts make up has its terms without a type last, if the parts have. -/
theorem Opening.Assembles.typedFirst {o : Opening} {parts : List Frame} {f : Frame}
    (h : o.Assembles none parts f) (hparts : Frame.Ordered parts.reverse) :
  ∀ ts ∈ f.termLists, Term.TypedFirst ts
  := by
  have hchain : parts.IsChain fun below above => Frame.MayRestOn above below := by
    rw [← List.isChain_reverse]
    exact hparts.chain
  have hlists : ∀ p ∈ parts, ∀ ts ∈ p.termLists, Term.TypedFirst ts := fun p hp =>
    hparts.typedFirst p (List.mem_reverse.mpr hp)
  have hformula : ∀ p ∈ parts, ∀ g, p.formula? = some g → ∀ ts ∈ g.termLists,
      Term.TypedFirst ts := by
    intro p hp g hg ts hts
    rw [← Frame.termLists_of_formula? hg] at hts
    exact hlists p hp ts hts
  cases h with
  | either t ts => exact nofun
  | atom name ts => simpa [Frame.termLists] using Frame.typedFirst_of_isChain hchain
  | @negation p g hp =>
    have hbody := hformula p List.mem_cons_self g hp
    exact hbody
  | @conjunction ps gs hps =>
    intro ts hts
    rw [Frame.termLists, Formula.termLists, Formula.termListsAll_eq,
      ← Frame.flatMap_termLists_of_formula? hps, List.mem_flatMap] at hts
    obtain ⟨p, hp, hts⟩ := hts
    exact hlists p hp ts hts
  | equality l r =>
    have hsides : Term.TypedFirst [l, r] := Frame.typedFirst_of_isChain hchain
    simpa [Frame.termLists, Formula.termLists] using hsides
  | @universal vs p g hp =>
    have hbound : Term.TypedFirst (vs.map .var) := by
      apply Frame.typedFirst_of_isChain
      rw [List.map_map]
      exact hchain.left_of_append
    rw [Frame.termLists, Formula.termLists, List.forall_mem_cons]
    constructor
    · rwa [List.map_id'' Variable.withDefault_none]
    · exact hformula p (by simp) g hp
  | @conditional p q c e hp hq =>
    rw [Frame.termLists, Formula.termLists, List.forall_mem_append]
    constructor
    · exact hformula p List.mem_cons_self c hp
    · exact hformula q (List.mem_cons_of_mem p List.mem_cons_self) e hq

/-! ### Runs -/

namespace Operation

/-- An operation that goes well keeps the order, and what it takes has its terms without a type
last. -/
theorem Succeeds.ordered {op : Operation} {a : Answer} {fs fs' : List Frame}
    (h : op.Succeeds none a fs fs') (hfs : Frame.Ordered fs) :
  Frame.Ordered fs' ∧ ∀ ts ∈ a.termLists, Term.TypedFirst ts
  := by
  have hsingle : ∀ t : Term, ∀ ts ∈ (Frame.term t).termLists, Term.TypedFirst ts := by
    intro t
    rw [Frame.termLists, List.forall_mem_singleton]
    exact Frame.typedFirst_of_isChain (List.isChain_singleton _)
  have hnone : ∀ ts ∈ ([] : List (List Term)), Term.TypedFirst ts := List.forall_mem_nil _
  cases h with
  | pushPrimitive name fs =>
    exact ⟨hfs.cons (fun g _ => Frame.mayRestOn_of_above rfl g) hnone, hnone⟩
  | pushVariable name fs =>
    exact ⟨hfs.cons (fun g _ => Frame.mayRestOn_of_untyped rfl g) (hsingle _), hnone⟩
  | pushConstant name fs =>
    exact ⟨hfs.cons (fun g _ => Frame.mayRestOn_of_untyped rfl g) (hsingle _), hnone⟩
  | begin s fs => exact ⟨hfs.cons (fun g _ => Frame.mayRestOn_of_above rfl g) hnone, hnone⟩
  | checkEmpty label => exact ⟨hfs, hnone⟩
  | takeNoFormula => exact ⟨hfs, hnone⟩
  | nameAtom name habove below =>
    rw [Frame.ordered_append_opened] at hfs ⊢
    exact ⟨hfs, hnone⟩
  | @annotate ty run hrun huntyped below hbelow =>
    refine ⟨(hfs.of_suffix (List.suffix_append _ _)).typed_append hbelow ?_, hnone⟩
    rw [List.forall_mem_map]
    intro t _
    cases t <;> rfl
  | finish hinnermost hparts =>
    rw [hinnermost.frames_eq, Frame.ordered_append_opened] at hfs
    have hfinished := hparts.typedFirst (by rw [List.reverse_reverse]; exact hfs.1)
    exact ⟨hfs.2.cons (fun g _ => Frame.mayRestOn_of_above hparts.term?_eq_none g) hfinished, hnone⟩
  | takeType t => exact ⟨hfs.of_suffix (List.suffix_cons _ _), hnone⟩
  | takeTypes ts hbelow => exact ⟨hfs.of_suffix (List.suffix_append _ _), hnone⟩
  | takeConstant c =>
    refine ⟨hfs.of_suffix (List.suffix_cons _ _), ?_⟩
    rw [Constant.withDefault_none]
    exact hsingle _
  | takeConstants cs hbelow =>
    refine ⟨hfs.of_suffix (List.suffix_append _ _), ?_⟩
    rw [List.map_id'' Constant.withDefault_none, Answer.termLists, List.forall_mem_singleton]
    apply Frame.Ordered.typedFirst_of_terms
    rw [List.map_map]
    exact hfs
  | takeVariables vs hbelow =>
    refine ⟨hfs.of_suffix (List.suffix_append _ _), ?_⟩
    rw [List.map_id'' Variable.withDefault_none, Answer.termLists, List.forall_mem_singleton]
    apply Frame.Ordered.typedFirst_of_terms
    rw [List.map_map]
    exact hfs
  | takePredicate a =>
    refine ⟨hfs.of_suffix (List.suffix_cons _ _), ?_⟩
    rw [Atom.withVariableDefault_none]
    exact hfs.typedFirst (.atom a) List.mem_cons_self
  | takeFormula hf =>
    refine ⟨hfs.of_suffix (List.suffix_cons _ _), ?_⟩
    intro ts hts
    rw [Answer.termLists, ← Frame.termLists_of_formula? hf] at hts
    exact hfs.typedFirst _ List.mem_cons_self ts hts

/-- A run keeps the order, whether its operations go well or not, and what it takes has its terms
without a type last. -/
theorem ordered_runAll (ops : List Operation) {fs : List Frame} (hfs : Frame.Ordered fs) :
  Frame.Ordered (runAll ⟨none, fs⟩ ops).frames ∧
    ∀ op a, (op, .ok a) ∈ trace ⟨none, fs⟩ ops → ∀ ts ∈ a.termLists, Term.TypedFirst ts
  := by
  induction ops generalizing fs with
  | nil => exact ⟨hfs, nofun⟩
  | cons op ops ih =>
    obtain ⟨a, fs', hop, hstep⟩ | ⟨e, fs', hsuffix, hstep⟩ := step_cases op none fs
    · obtain ⟨hfs', ha⟩ := hop.ordered hfs
      obtain ⟨hframes, htrace⟩ := ih hfs'
      rw [hop.runAll_cons, hop.trace_cons]
      refine ⟨hframes, ?_⟩
      intro op' a' hmem
      rcases List.mem_cons.mp hmem with heq | hmem
      · cases heq
        exact ha
      · exact htrace op' a' hmem
    · obtain ⟨hframes, htrace⟩ := ih (hfs.of_suffix hsuffix)
      rw [runAll_cons, trace, hstep]
      refine ⟨hframes, ?_⟩
      intro op' a' hmem
      rcases List.mem_cons.mp hmem with heq | hmem
      · cases heq
      · exact htrace op' a' hmem

/-- The lists of terms in the frames after a run from the empty builder without a default type, and
in what the run has taken. -/
def madeLists (ops : List Operation) : List (List Term) :=
  (runAll (.new none) ops).frames.flatMap Frame.termLists ++
    (trace (.new none) ops).flatMap fun e => e.2.toOption.elim [] Answer.termLists

theorem typedFirst_of_mem_madeLists {ops : List Operation} {ts : List Term}
    (h : ts ∈ madeLists ops) :
  Term.TypedFirst ts
  := by
  have hempty : Frame.Ordered [] := ⟨.nil, nofun⟩
  obtain ⟨hframes, htrace⟩ := ordered_runAll ops hempty
  rw [madeLists, List.mem_append, List.mem_flatMap, List.mem_flatMap] at h
  rcases h with ⟨f, hf, hts⟩ | ⟨⟨op, r⟩, he, hts⟩
  · exact hframes.typedFirst f hf ts hts
  · cases r with
    | error e => contradiction
    | ok a => exact htrace op a he ts hts

/-- In a run from the empty builder without a default type, whether its operations fail or not, no
term without a type is ever directly below one that has a type.  In each list of terms that is built
or taken those without a type come last.  So what is written after the variables of such a list
tells their types: the type of a variable is the first one that stands behind it.  Where the names
are words, no other such list has the same text. -/
theorem typed_terms_first (ops : List Operation) :
  (∀ front back above below,
    (runAll (.new none) ops).frames = front ++ .term above :: .term below :: back →
    below.ty = none → above.ty = none) ∧
  (∀ ts ∈ madeLists ops, Term.TypedFirst ts) ∧
  (∀ vs, vs.map .var ∈ madeLists ops →
    Variable.listText vs = " ".intercalate
      (List.zipWith Variable.annotatedText vs (Variable.annotations vs)) ∧
    ∀ i v, vs[i]? = some v → v.ty = ((Variable.annotations vs).drop i).findSome? id) ∧
  ∀ ops' vs vs', vs.map .var ∈ madeLists ops → vs'.map .var ∈ madeLists ops' →
    (vs ++ vs').all (fun v => isWord v.name && v.ty.all (·.names.all isWord)) →
    Variable.listText vs = Variable.listText vs' → vs = vs'
  := by
  have hempty : Frame.Ordered [] := ⟨.nil, nofun⟩
  refine ⟨?_, fun ts => typedFirst_of_mem_madeLists, ?_, ?_⟩
  · intro front back above below hframes hbelow
    have hchain : (runAll (.new none) ops).frames.IsChain Frame.MayRestOn :=
      (ordered_runAll ops hempty).1.chain
    rw [hframes] at hchain
    exact (List.isChain_cons_cons.mp hchain.right_of_append).1 above below rfl rfl hbelow
  · intro vs hvs
    have hfirst := Variable.typedFirst_of_terms (typedFirst_of_mem_madeLists hvs)
    exact ⟨Variable.listText_eq vs, fun i v => Variable.ty_eq_findSome? hfirst⟩
  · intro ops' vs vs' hvs hvs' hwords
    rw [List.all_append, Bool.and_eq_true] at hwords
    apply Variable.listText_inj
    · rw [Variable.areListed, hwords.1, Bool.and_true]
      exact Variable.typedFirst_of_terms (typedFirst_of_mem_madeLists hvs)
    · rw [Variable.areListed, hwords.2, Bool.and_true]
      exact Variable.typedFirst_of_terms (typedFirst_of_mem_madeLists hvs')

/-- Three bound variables of which two share a type: whatever list of variables has this text and
words for names is this one. -/
theorem typed_terms_first_bound :
  let ops : List Operation :=
    [begin .universal, pushVariable "?x", pushVariable "?y", annotate (.primitive "block"),
      pushVariable "?z", begin .conjunction, finish .conjunction, finish .universal]
  let vs : List Variable :=
    [⟨"x", some (.primitive "block")⟩, ⟨"y", some (.primitive "block")⟩, ⟨"z", none⟩]
  vs.map .var ∈ madeLists ops ∧ Variable.listText vs = "?x ?y - block ?z" ∧
  ∀ ops' vs', vs'.map .var ∈ madeLists ops' →
    vs'.all (fun v => isWord v.name && v.ty.all (·.names.all isWord)) →
    Variable.listText vs' = "?x ?y - block ?z" → vs' = vs
  := by
  intro ops vs
  have hframes : (runAll (.new none) ops).frames =
      [.formula (.universal vs (.conjunction []))] := by
    simp only [vs]
    cbv
  have hmade : vs.map .var ∈ madeLists ops := by
    rw [madeLists, hframes]
    exact List.mem_append_left _ List.mem_cons_self
  have htext : Variable.listText vs = "?x ?y - block ?z" := by cbv
  have hwords : vs.all (fun v => isWord v.name && v.ty.all (·.names.all isWord)) := by cbv
  refine ⟨hmade, htext, ?_⟩
  intro ops' vs' hmade' hwords' htext'
  symm
  apply (typed_terms_first ops).2.2.2 ops' vs vs' hmade hmade'
  · rw [List.all_append, hwords, hwords', Bool.and_self]
  · rw [htext, htext']

end Operation

end PlanLang
