import Mathlib
import PlanLang.Proofs.Builder.Success

/-!
# Runs above other frames

What goes well on an empty builder goes well above an opening, too, with the same answers.  The
frames from the opening downwards stay as they are.
-/

namespace PlanLang

namespace Operation

open Builder

/-- What holds of the frame below a list of frames, if there is one, holds of the frame below the
list and the frames `base`, if it holds of the top one of these. -/
theorem forall_head?_append {p : Frame → Prop} {below base : List Frame}
    (hbelow : ∀ f ∈ below.head?, p f) (hbase : ∀ f ∈ base.head?, p f) :
  ∀ f ∈ (below ++ base).head?, p f
  := by
  cases below with
  | nil => exact hbase
  | cons f below => exact hbelow

/-- An operation that goes well does so above the frames `base`, too, if the top one of these is an
opening.  Asking for an empty builder is left out, and so is the formula that is missing because
nothing is there. -/
theorem Succeeds.append {T : Option Ty} {op : Operation} {a : Answer} {fs fs' base : List Frame}
    (h : op.Succeeds T a fs fs') (hbase : ∀ f ∈ base.head?, f.isOpen)
    (hcheck : ∀ label, op ≠ Operation.checkEmpty label)
    (hformula : op = Operation.takeFormula → fs ≠ []) :
  op.Succeeds T a (fs ++ base) (fs' ++ base)
  := by
  have hfinished : ∀ f ∈ base.head?, f.isUntyped = false ∧ f.ty? = none ∧ f.const? = none ∧
      f.var? = none := by
    intro f hf
    have hopen := hbase f hf
    cases f with
    | opened o => exact ⟨rfl, rfl, rfl, rfl⟩
    | _ => contradiction
  cases h with
  | pushPrimitive name => exact .pushPrimitive name _
  | pushVariable name => exact .pushVariable name _
  | pushConstant name => exact .pushConstant name _
  | begin s => exact .begin s _
  | nameAtom name habove below =>
    rw [List.append_assoc, List.append_assoc]
    exact .nameAtom name habove _
  | annotate ty hrun huntyped hbelow =>
    rw [List.append_assoc, List.append_assoc]
    exact .annotate ty hrun huntyped
      (forall_head?_append hbelow fun f hf => (hfinished f hf).1)
  | @finish _ above below o f hinnermost hparts =>
    obtain ⟨rfl, habove⟩ := hinnermost
    rw [List.append_assoc]
    exact .finish ⟨rfl, habove⟩ hparts
  | checkEmpty label => exact absurd rfl (hcheck label)
  | takeType t => exact .takeType t _
  | takeTypes ts hbelow =>
    rw [List.append_assoc]
    exact .takeTypes ts (forall_head?_append hbelow fun f hf => (hfinished f hf).2.1)
  | takeConstant c => exact .takeConstant c _
  | takeConstants cs hbelow =>
    rw [List.append_assoc]
    exact .takeConstants cs (forall_head?_append hbelow fun f hf => (hfinished f hf).2.2.1)
  | takeVariables vs hbelow =>
    rw [List.append_assoc]
    exact .takeVariables vs (forall_head?_append hbelow fun f hf => (hfinished f hf).2.2.2)
  | takePredicate a => exact .takePredicate a _
  | takeNoFormula => exact absurd rfl (hformula rfl)
  | takeFormula hf => exact .takeFormula hf _

/-- A run that goes well does so above the frames `base`, too. -/
theorem trace_and_runAll_append {T : Option Ty} {base : List Frame}
    (hbase : ∀ f ∈ base.head?, f.isOpen) {ops : List Operation}
    (hcheck : ∀ label, checkEmpty label ∉ ops) {fs : List Frame}
    (hformula : ∀ before after, ops = before ++ takeFormula :: after →
      (runAll ⟨T, fs⟩ before).frames ≠ [])
    (hok : ∀ e ∈ trace ⟨T, fs⟩ ops, ∃ a, e.2 = .ok a) :
  trace ⟨T, fs ++ base⟩ ops = trace ⟨T, fs⟩ ops ∧
    runAll ⟨T, fs ++ base⟩ ops = ⟨T, (runAll ⟨T, fs⟩ ops).frames ++ base⟩
  := by
  induction ops generalizing fs with
  | nil => exact ⟨rfl, rfl⟩
  | cons op ops ih =>
    obtain ⟨a, ha⟩ := hok _ List.mem_cons_self
    obtain ⟨fs', hop⟩ := exists_succeeds_of_ok ha
    have habove : op.Succeeds T a (fs ++ base) (fs' ++ base) := by
      apply hop.append hbase
      · rintro label rfl
        exact hcheck label List.mem_cons_self
      · rintro rfl
        exact hformula [] ops rfl
    rw [hop.trace_cons, List.forall_mem_cons] at hok
    have hcheck' : ∀ label, Operation.checkEmpty label ∉ ops := fun label hlabel =>
      hcheck label (List.mem_cons_of_mem op hlabel)
    have hformula' : ∀ before after, ops = before ++ Operation.takeFormula :: after →
        (runAll ⟨T, fs'⟩ before).frames ≠ [] := by
      rintro before after rfl
      rw [← hop.runAll_cons]
      exact hformula (op :: before) after rfl
    obtain ⟨htrace, hrun⟩ := ih hcheck' hformula' hok.2
    rw [habove.trace_cons, habove.runAll_cons, hop.trace_cons, hop.runAll_cons, htrace]
    exact ⟨rfl, hrun⟩

/-- If all operations of a run from the empty builder go well, then those of the same run above an
opening do, too.  They come to the same, and the run leaves its frames on top of those that were
there before.  The run must not ask whether the builder is empty, neither by itself nor for a
formula when it has no frames. -/
theorem trace_above (base : Builder) (hbase : ∀ f ∈ base.frames.head?, f.isOpen)
    (ops : List Operation) (hcheck : ∀ label, checkEmpty label ∉ ops)
    (hformula : ∀ before after, ops = before ++ takeFormula :: after →
      (runAll (.new base.defaultType) before).frames ≠ [])
    (hok : ∀ e ∈ trace (.new base.defaultType) ops, ∃ a, e.2 = .ok a) :
  trace base ops = trace (.new base.defaultType) ops ∧
    runAll base ops =
      ⟨base.defaultType, (runAll (.new base.defaultType) ops).frames ++ base.frames⟩
  := trace_and_runAll_append hbase hcheck hformula hok

/-- An atom that is built, typed and taken inside a negation. -/
theorem trace_above_negation :
  let base : Builder := ⟨none, [.opened .negation, .term (.const ⟨"b", none⟩)]⟩
  let ops : List Operation :=
    [begin .atom, nameAtom "Clear", pushVariable "?X", pushPrimitive "Block", takeType,
      annotate (.primitive "block"), finish .atom, takeFormula, pushConstant "A"]
  (∀ f ∈ base.frames.head?, f.isOpen) ∧ (∀ label, checkEmpty label ∉ ops) ∧
  (∀ before after, ops = before ++ takeFormula :: after →
    (runAll (.new base.defaultType) before).frames ≠ []) ∧
  (∀ e ∈ trace (.new base.defaultType) ops, ∃ a, e.2 = .ok a) ∧
  trace base ops = trace (.new base.defaultType) ops ∧
  runAll base ops = ⟨none, .term (.const ⟨"a", none⟩) :: base.frames⟩
  := by
  intro base ops
  have hbase : ∀ f ∈ base.frames.head?, f.isOpen := by decide
  have hcheck : ∀ label, checkEmpty label ∉ ops := by simp [ops]
  have hformula : ∀ before after, ops = before ++ takeFormula :: after →
      (runAll (.new base.defaultType) before).frames ≠ [] := by
    intro before after h
    have hindex : ∀ i < ops.length, ops[i]? = some takeFormula → i = 7 := by decide
    have hlength : before.length = 7 := by
      apply hindex
      · simp [h]
      · simp [h]
    have htake : before = ops.take 7 := by rw [h, ← hlength, List.take_left]
    have hframes : (runAll (.new none) (ops.take 7)).frames =
        [.atom ⟨"clear", [.var ⟨"x", some (.primitive "block")⟩]⟩] := by
      cbv
    rw [htake, hframes]
    apply List.cons_ne_nil
  have hok : ∀ e ∈ trace (.new base.defaultType) ops, ∃ a, e.2 = .ok a := by
    have htrace : trace (.new none) ops = (ops.zip [.done, .done, .done, .done,
        .ty (.primitive "block"), .done, .done,
        .formula (some (.atom ⟨"clear", [.var ⟨"x", some (.primitive "block")⟩]⟩)), .done]).map
          (Prod.map id .ok) := by
      cbv
    rw [htrace]
    simp [ops]
  obtain ⟨htrace, hrun⟩ := trace_above base hbase ops hcheck hformula hok
  refine ⟨hbase, hcheck, hformula, hok, htrace, hrun.trans ?_⟩
  have hframes : (runAll (.new none) ops).frames = [.term (.const ⟨"a", none⟩)] := by cbv
  rw [hframes]
  rfl

end Operation

end PlanLang
