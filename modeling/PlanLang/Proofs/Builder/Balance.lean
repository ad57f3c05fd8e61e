import Mathlib
import PlanLang.Builder.Trace
import PlanLang.Proofs.Builder.Openings

/-!
# Balanced runs

Whatever operations are carried out on a builder, and whether they fail or not, the openings among
its frames are those of the constructs that have been begun and not been closed.  The end of a
construct closes the one that has been begun last, which must be of its own kind.  So a run that
goes well throughout and leaves nothing is well nested.
-/

namespace PlanLang

/-! ### What an operation opens and closes -/

/-- The end of a construct has removed the opening: it goes well, or what is above the opening does
not fit together. -/
def Outcome.closes : Outcome → Bool
  | .ok _ => true
  | .error e => e.kind.isMisfit

namespace Operation

open Builder

/-- The constructs that are begun and not closed after one more operation, the latest first. -/
def noteUnclosed (current : List Shape) : Operation × Outcome → List Shape
  | (.begin s, _) => s :: current
  | (.finish _, r) => if r.closes then current.tail else current
  | _ => current

/-- The constructs that have been begun and not been closed in a run, the latest first.  The end of
a construct closes the latest one. -/
def unclosed (t : List (Operation × Outcome)) : List Shape :=
  t.foldl noteUnclosed []

theorem step_snd (op : Operation) (b : Builder) :
  (op.step b).2 = after op.run b
  := by
  unfold step after
  cases op.run b <;> rfl

/-- The operation is the beginning or the end of a construct. -/
def isBracket : Operation → Bool
  | begin _ | finish _ => true
  | _ => false

/-- Naming an atom aside, the beginnings and ends of constructs are all that touches an opening or
what is below one. -/
theorem keepsBelow_run {op : Operation} (hbracket : op.isBracket = false)
    (hname : ∀ name, op ≠ nameAtom name) :
  KeepsBelow op.run
  := by
  have hty := isFinishedView_of_opened Frame.ty? fun _ => rfl
  have hvar := isFinishedView_of_opened Frame.var? fun _ => rfl
  have hconst := isFinishedView_of_opened Frame.const? fun _ => rfl
  have hatom := isFinishedView_of_opened Frame.atom? fun _ => rfl
  cases op with
  | pushPrimitive name => exact (keepsBelow_push rfl).bind_pure _
  | pushVariable name => exact (keepsBelow_push rfl).bind_pure _
  | pushConstant name => exact (keepsBelow_push rfl).bind_pure _
  | nameAtom name => exact absurd rfl (hname name)
  | annotate ty => exact (keepsBelow_annotate ty).bind_pure _
  | begin s => contradiction
  | finish s => contradiction
  | checkEmpty operation => exact (keepsBelow_checkEmpty operation).bind_pure _
  | takeType => exact (keepsBelow_take hty).bind_pure _
  | takeTypes => exact (keepsBelow_takeAll hty).bind_pure _
  | takeConstant => exact ((keepsBelow_take hconst).bind_get _).bind_pure _
  | takeConstants => exact ((keepsBelow_takeAll hconst).bind_get _).bind_pure _
  | takeVariables => exact ((keepsBelow_takeAll hvar).bind_get _).bind_pure _
  | takePredicate => exact ((keepsBelow_take hatom).bind_get _).bind_pure _
  | takeFormula => exact keepsBelow_takeFormula?.bind_pure _

/-- The beginnings and ends of constructs are all that opens or closes anything. -/
theorem keepsOpen_run {op : Operation} (h : op.isBracket = false) :
  KeepsOpen op.run
  := by
  by_cases hname : ∃ name, op = nameAtom name
  · obtain ⟨name, rfl⟩ := hname
    intro b
    rw [run, after_bind_pure (Builder.nameAtom name), keepsOpen_nameAtom name b]
  · exact (keepsBelow_run h (not_exists.mp hname)).keepsOpen

theorem openShapes_of_not_isBracket {op : Operation} (h : op.isBracket = false) (b : Builder) :
  (op.step b).2.openShapes = b.openShapes
  := by
  rw [step_snd, keepsOpen_run h b]

/-- A beginning goes well and opens its construct. -/
theorem openShapes_step_begin (s : Shape) (b : Builder) :
  ((begin s).step b).2.openShapes = s :: b.openShapes
  := by
  change (Opening.ofShape s).shape :: b.openShapes = _
  rw [Opening.shape_ofShape]

theorem step_finish (s : Shape) (b : Builder) :
  (finish s).step b =
    match Builder.finish s b with
    | .ok _ b' => (.ok .done, b')
    | .error e b' => (.error e, b')
  := by
  simp only [step, run, Bind.bind, EStateM.bind]
  cases Builder.finish s b <;> rfl

/-- The end of a construct changes nothing, or it closes the innermost open construct, which is of
its own kind. -/
theorem step_finish_cases (s : Shape) (b : Builder) :
  (∃ r : Outcome, r.closes = false ∧ (finish s).step b = (r, b)) ∨
    ∃ (r : Outcome) (b' : Builder), r.closes ∧ (finish s).step b = (r, b') ∧
      b.openShapes = s :: b'.openShapes
  := by
  obtain ⟨kind, hkind, hfail⟩ | ⟨above, o, below, hinnermost, rfl, hfinish⟩ := finish_cases s b
  · left
    rw [step_finish, hfail]
    exact ⟨.error ⟨kind, s.endLabel, b.depth⟩, hkind, rfl⟩
  · right
    have hopen : b.openShapes = o.shape :: Frame.shapes below := by
      rw [openShapes, ← Frame.shapes_fromOpening, hinnermost.fromOpening_eq,
        Frame.shapes_opened_cons]
    obtain ⟨f, hf, hok⟩ | ⟨kind, hkind, herror⟩ := hfinish
    · rw [step_finish, hok, hopen]
      refine ⟨_, _, rfl, rfl, ?_⟩
      rw [openShapes, Frame.shapes_finished_cons hf]
    · rw [step_finish, herror, hopen]
      exact ⟨.error ⟨kind, o.shape.endLabel, b.depth⟩, _, hkind, rfl, rfl⟩

/-- One operation changes the open constructs as it changes the ones that are not closed. -/
theorem openShapes_step (op : Operation) (b : Builder) :
  (op.step b).2.openShapes = noteUnclosed b.openShapes (op, (op.step b).1)
  := by
  cases op with
  | begin s => exact openShapes_step_begin s b
  | finish s =>
    obtain ⟨r, hr, hstep⟩ | ⟨r, b', hr, hstep, hopen⟩ := step_finish_cases s b
    · simp [hstep, noteUnclosed, hr]
    · simp [hstep, noteUnclosed, hr, hopen]
  | _ => exact openShapes_of_not_isBracket rfl b

/-- The end of a construct closes the construct only if this is the innermost open one. -/
theorem head?_of_closes {s : Shape} {b : Builder} (h : ((finish s).step b).1.closes) :
  b.openShapes.head? = some s
  := by
  obtain ⟨r, hr, hstep⟩ | ⟨r, b', -, -, hopen⟩ := step_finish_cases s b
  · rw [hstep] at h
    simp [hr] at h
  · rw [hopen, List.head?_cons]

/-! ### Runs -/

theorem runAll_cons (op : Operation) (ops : List Operation) (b : Builder) :
  runAll b (op :: ops) = runAll (op.step b).2 ops
  := rfl

/-- After a run the open constructs are those before it, changed by what the trace tells. -/
theorem openShapes_runAll (ops : List Operation) (b : Builder) :
  (runAll b ops).openShapes = (trace b ops).foldl noteUnclosed b.openShapes
  := by
  induction ops generalizing b with
  | nil => rfl
  | cons op ops ih =>
    rw [runAll_cons, ih, trace, List.foldl_cons, openShapes_step]

theorem head?_of_trace {ops : List Operation} {b : Builder}
    {before rest : List (Operation × Outcome)} {s : Shape} {r : Outcome}
    (h : trace b ops = before ++ (finish s, r) :: rest) (hr : r.closes) :
  (before.foldl noteUnclosed b.openShapes).head? = some s
  := by
  induction before generalizing b ops with
  | nil =>
    cases ops with
    | nil => contradiction
    | cons op ops =>
      obtain ⟨⟨rfl, rfl⟩, -⟩ : (op = finish s ∧ (op.step b).1 = r) ∧ _ := by
        simpa [trace] using h
      exact head?_of_closes hr
  | cons e before ih =>
    cases ops with
    | nil => contradiction
    | cons op ops =>
      obtain ⟨rfl, hrest⟩ := List.cons_eq_cons.mp h
      rw [List.foldl_cons, ← openShapes_step]
      exact ih hrest

/-! ### Well-nested runs -/

/-- Beginnings and ends in which each beginning has an end of its own kind, with well-nested
beginnings and ends in between. -/
inductive WellNested : List Operation → Prop where
  | nil : WellNested []
  | nest {s : Shape} {inner rest : List Operation} (hinner : WellNested inner)
      (hrest : WellNested rest) : WellNested (begin s :: (inner ++ finish s :: rest))

/-- The operations end the constructs that are open, the innermost first, with well-nested
operations before each end and after the last. -/
def Ends : List Shape → List Operation → Prop
  | [], w => WellNested w
  | s :: current, w => ∃ inner rest, w = inner ++ finish s :: rest ∧ WellNested inner ∧
      Ends current rest

theorem Ends.begin {s : Shape} {current : List Shape} {w : List Operation}
    (h : Ends (s :: current) w) :
  Ends current (begin s :: w)
  := by
  obtain ⟨inner, rest, rfl, hinner, hrest⟩ := h
  cases current with
  | nil => exact .nest hinner hrest
  | cons s' current =>
    obtain ⟨inner', rest', rfl, hinner', hrest'⟩ := hrest
    refine ⟨Operation.begin s :: (inner ++ Operation.finish s :: inner'), rest', ?_,
      .nest hinner hinner', hrest'⟩
    simp

theorem Ends.finish {s : Shape} {current : List Shape} {w : List Operation} (h : Ends current w) :
  Ends (s :: current) (finish s :: w)
  := ⟨[], w, rfl, .nil, h⟩

/-- A run that goes well and leaves nothing open ends what was open before it. -/
theorem ends_of_trace {ops : List Operation} {b : Builder}
    (hok : ∀ e ∈ trace b ops, ∃ a, e.2 = .ok a) (hempty : (runAll b ops).openShapes = []) :
  Ends b.openShapes (ops.filter isBracket)
  := by
  induction ops generalizing b with
  | nil =>
    change b.openShapes = [] at hempty
    rw [hempty]
    exact .nil
  | cons op ops ih =>
    rw [trace, List.forall_mem_cons] at hok
    obtain ⟨⟨a, ha⟩, hok⟩ := hok
    have hrest := ih hok hempty
    cases op with
    | begin s =>
      rw [openShapes_step_begin] at hrest
      exact hrest.begin
    | finish s =>
      obtain ⟨r, hr, hstep⟩ | ⟨r, b', -, hstep, hopen⟩ := step_finish_cases s b
      · obtain rfl : r = .ok a := by rwa [hstep] at ha
        contradiction
      · rw [hstep] at hrest
        rw [hopen]
        exact hrest.finish
    | _ =>
      rw [openShapes_of_not_isBracket rfl] at hrest
      exact hrest

/-- After any run of operations from an empty builder, whether they fail or not, the openings among
the frames are those of the constructs that have been begun and not been closed.  The end of a
construct that closes one, because it goes well or because the frames above the opening do not fit
together, is that of the construct begun last.  Where all operations go well and no frame remains,
the beginnings and ends are well nested. -/
theorem openShapes_eq_unclosed (T : Option Ty) (ops : List Operation) :
  (runAll (.new T) ops).openShapes = unclosed (trace (.new T) ops) ∧
  (∀ before s r rest, trace (.new T) ops = before ++ (finish s, r) :: rest → r.closes →
    (unclosed before).head? = some s) ∧
  ((∀ e ∈ trace (.new T) ops, ∃ a, e.2 = .ok a) → (runAll (.new T) ops).frames = [] →
    WellNested (ops.filter isBracket))
  := by
  refine ⟨openShapes_runAll ops (.new T), ?_, ?_⟩
  · intro before s r rest htrace hr
    exact head?_of_trace htrace hr
  · intro hok hframes
    have hempty : (runAll (.new T) ops).openShapes = [] := by rw [openShapes, hframes]; rfl
    exact ends_of_trace hok hempty

/-- The end of an equality that closes it although a side is missing, and a run that goes well. -/
theorem openShapes_eq_unclosed_goal :
  let sides : List Operation := [begin .conjunction, begin .equality, pushConstant "a"]
  let r : Outcome := .error ⟨.arity "exactly two terms" 1, "end_equals", 3⟩
  let goal : List Operation :=
    [begin .negation, begin .atom, nameAtom "Clear", pushVariable "?x", finish .atom,
      finish .negation, takeFormula]
  (trace (.new none) (sides ++ [finish .equality]) =
      trace (.new none) sides ++ (finish .equality, r) :: [] ∧ r.closes ∧
    (unclosed (trace (.new none) sides)).head? = some .equality) ∧
  (∀ e ∈ trace (.new none) goal, ∃ a, e.2 = .ok a) ∧ (runAll (.new none) goal).frames = [] ∧
    WellNested [begin .negation, begin .atom, finish .atom, finish .negation]
  := by
  intro sides r goal
  have htrace : trace (.new none) (sides ++ [finish .equality]) =
      trace (.new none) sides ++ (finish .equality, r) :: [] := by
    cbv
  have hok : ∀ e ∈ trace (.new none) goal, ∃ a, e.2 = .ok a := by
    have hgoal : trace (.new none) goal = (goal.zip [.done, .done, .done, .done, .done, .done,
        .formula (some (.negation (.atom ⟨"clear", [.var ⟨"x", none⟩]⟩)))]).map
          (Prod.map id .ok) := by
      cbv
    rw [hgoal]
    simp [goal]
  have hframes : (runAll (.new none) goal).frames = [] := by cbv
  refine ⟨⟨htrace, rfl, ?_⟩, hok, hframes, ?_⟩
  · exact (openShapes_eq_unclosed none _).2.1 _ _ _ _ htrace rfl
  · exact (openShapes_eq_unclosed none goal).2.2 hok hframes

end Operation

end PlanLang
