import Mathlib
import PlanLang.Proofs.Builder.Assembly
import PlanLang.Proofs.Builder.Failure

/-!
# Operations that go well

What an operation does where it goes well is a relation between the frames before and after it.  It
names the frames on top that the operation adds, takes off or looks at, and says nothing about those
below them.
-/

namespace PlanLang

namespace Builder

variable {α β : Type} {T : Option Ty} {fs : List Frame} {b' : Builder}

/-! ### Operations of builders -/

theorem bind_pure_eq_ok_iff {op : Build α} {f : α → β} {b : Builder} {r : β} :
  (do return f (← op) : Build β) b = .ok r b' ↔ ∃ a, op b = .ok a b' ∧ r = f a
  := by
  rw [bind_pure_apply]
  cases op b <;> simp [eq_comm, and_comm]

theorem bind_get_eq_ok_iff {op : Build α} {f : α → Builder → β} {b : Builder} {r : β} :
  (do let a ← op; return f a (← get) : Build β) b = .ok r b' ↔
    ∃ a, op b = .ok a b' ∧ r = f a b'
  := by
  rw [bind_get_apply]
  cases op b with
  | error e t => simp
  | ok a t =>
    simp only [EStateM.Result.ok.injEq]
    constructor
    · rintro ⟨rfl, rfl⟩
      exact ⟨a, ⟨rfl, rfl⟩, rfl⟩
    · rintro ⟨_, ⟨rfl, rfl⟩, rfl⟩
      exact ⟨rfl, rfl⟩

theorem exists_terms_of_isUntyped (h : ∀ f ∈ fs, f.isUntyped) :
  ∃ ts : List Term, fs = ts.map .term ∧ ∀ t ∈ ts, t.ty = none
  := by
  induction fs with
  | nil => exact ⟨[], rfl, by simp⟩
  | cons f fs ih =>
    rw [List.forall_mem_cons] at h
    obtain ⟨ts, rfl, hts⟩ := ih h.2
    cases f with
    | term t =>
      have ht : t.ty = none := by simpa [Frame.isUntyped] using h.1
      exact ⟨t :: ts, rfl, List.forall_mem_cons.mpr ⟨ht, hts⟩⟩
    | _ => exact absurd h.1 Bool.false_ne_true

/-- All terms on top that have no type are given one. -/
theorem annotate_eq_ok_iff {ty : Ty} {u : Unit} :
  annotate ty ⟨T, fs⟩ = .ok u b' ↔
    ∃ (run : List Term) (below : List Frame), run ≠ [] ∧ (∀ t ∈ run, t.ty = none) ∧
      (∀ f ∈ below.head?, f.isUntyped = false) ∧ fs = run.map .term ++ below ∧
      b' = ⟨T, (run.map (Term.withType ty)).map .term ++ below⟩
  := by
  constructor
  · intro h
    obtain ⟨hfs, hfront, hback⟩ := (takeWhile_and_dropWhile_iff Frame.isUntyped fs).mp ⟨rfl, rfl⟩
    obtain ⟨run, hrun, huntyped⟩ := exists_terms_of_isUntyped hfront
    rw [hrun] at hfs
    have hne : run ≠ [] := by
      rintro rfl
      simp [annotate, hrun, fail] at h
    refine ⟨run, _, hne, huntyped, hback, hfs, ?_⟩
    rw [hfs, annotate_ok ty T hne huntyped hback] at h
    cases h
    rfl
  · rintro ⟨run, below, hrun, huntyped, hbelow, rfl, rfl⟩
    exact annotate_ok ty T hrun huntyped hbelow

/-- The search for an open atom passes over frames that are none. -/
theorem search_append {above : List Frame} (h : ∀ f ∈ above, f.shape? ≠ some .atom)
    (below : List Frame) :
  openName? (above ++ below) = openName? below ∧
    ∀ name, fillName name (above ++ below) = above ++ fillName name below
  := by
  induction above with
  | nil => exact ⟨rfl, fun _ => rfl⟩
  | cons f above ih =>
    rw [List.forall_mem_cons] at h
    obtain ⟨hname, hfill⟩ := ih h.2
    have hcons : openName? (f :: (above ++ below)) = openName? (above ++ below) ∧
        ∀ name, fillName name (f :: (above ++ below)) = f :: fillName name (above ++ below) := by
      cases f with
      | opened o =>
        cases o with
        | atom name => exact absurd rfl h.1
        | _ => exact ⟨rfl, fun _ => rfl⟩
      | _ => exact ⟨rfl, fun _ => rfl⟩
    rw [List.cons_append, hcons.1, hname]
    refine ⟨rfl, fun name => ?_⟩
    rw [hcons.2, hfill, List.cons_append]

/-- The innermost open atom gets a name, if it has none. -/
theorem nameAtom_eq_ok_iff {name : String} {u : Unit} :
  nameAtom name ⟨T, fs⟩ = .ok u b' ↔
    ∃ above below : List Frame, (∀ f ∈ above, f.shape? ≠ some .atom) ∧
      fs = above ++ .opened (.atom none) :: below ∧
      b' = ⟨T, above ++ .opened (.atom (some name.toLower)) :: below⟩
  := by
  have hfill : nameAtom name ⟨T, fs⟩ = .ok u b' ↔
      openName? fs = some none ∧ b' = ⟨T, fillName name.toLower fs⟩ := by
    cases hname : openName? fs with
    | none => simp [nameAtom, hname, fail]
    | some given => cases given <;> simp [nameAtom, hname, fail, eq_comm]
  rw [hfill]
  constructor
  · rintro ⟨hname, rfl⟩
    obtain ⟨above, below, hfs, habove, hfilled⟩ := exists_of_openName? hname
    exact ⟨above, below, habove, hfs, by rw [hfilled]⟩
  · rintro ⟨above, below, habove, rfl, rfl⟩
    obtain ⟨hname, hfilled⟩ := search_append habove (.opened (.atom none) :: below)
    exact ⟨hname, by rw [hfilled]; rfl⟩

/-- The innermost construct ends where its parts fit together. -/
theorem finish_eq_ok_iff {s : Shape} {u : Unit} :
  finish s ⟨T, fs⟩ = .ok u b' ↔
    ∃ above o below f, Frame.Innermost fs above o below ∧ o.shape = s ∧
      Opening.Assembles T o above.reverse f ∧ b' = ⟨T, f :: below⟩
  := by
  constructor
  · intro h
    obtain hfinished | ⟨above, o, below, hinnermost⟩ := Frame.finished_or_exists_innermost fs
    · rw [finish_of_finished hfinished] at h
      contradiction
    · by_cases hs : o.shape = s
      · simp only [finish, innermost?_of_innermost hinnermost, ne_eq, hs, not_true_eq_false,
          if_false] at h
        cases hparts : o.assemble T above.reverse with
        | ok f =>
          rw [hparts] at h
          cases h
          exact ⟨above, o, below, f, hinnermost, hs, Opening.assemble_eq_ok_iff.mp hparts, rfl⟩
        | error kind =>
          rw [hparts] at h
          cases kind <;> contradiction
      · rw [finish_of_shape_ne hinnermost hs] at h
        contradiction
  · rintro ⟨above, o, below, f, ⟨rfl, hfinished⟩, hs, hparts, rfl⟩
    have hfinish := finish_ok hs (by simpa using hfinished) hparts below
    rwa [List.reverse_reverse] at hfinish

end Builder

namespace Operation

open Builder

/-- The operation goes well on a builder with the frames `fs`: it answers `a` and leaves the frames
`fs'`. -/
inductive Succeeds (T : Option Ty) : Operation → Answer → List Frame → List Frame → Prop where
  | pushPrimitive (name : String) (fs : List Frame) :
    Succeeds T (pushPrimitive name) .done fs (.ty (.primitive name) :: fs)
  | pushVariable (name : String) (fs : List Frame) :
    Succeeds T (pushVariable name) .done fs (.term (.var (.ofName name)) :: fs)
  | pushConstant (name : String) (fs : List Frame) :
    Succeeds T (pushConstant name) .done fs (.term (.const (.ofName name)) :: fs)
  | nameAtom (name : String) {above : List Frame} (habove : ∀ f ∈ above, f.shape? ≠ some .atom)
    (below : List Frame) :
    Succeeds T (nameAtom name) .done (above ++ .opened (.atom none) :: below)
      (above ++ .opened (.atom (some name.toLower)) :: below)
  | annotate (ty : Ty) {run : List Term} (hrun : run ≠ []) (huntyped : ∀ t ∈ run, t.ty = none)
    {below : List Frame} (hbelow : ∀ f ∈ below.head?, f.isUntyped = false) :
    Succeeds T (annotate ty) .done (run.map .term ++ below)
      ((run.map (Term.withType ty)).map .term ++ below)
  | begin (s : Shape) (fs : List Frame) :
    Succeeds T (begin s) .done fs (.opened (.ofShape s) :: fs)
  | finish {fs above below : List Frame} {o : Opening} {f : Frame}
    (hinnermost : Frame.Innermost fs above o below) (hparts : o.Assembles T above.reverse f) :
    Succeeds T (finish o.shape) .done fs (f :: below)
  | checkEmpty (operation : String) :
    Succeeds T (checkEmpty operation) .done [] []
  | takeType (t : Ty) (fs : List Frame) :
    Succeeds T takeType (.ty t) (.ty t :: fs) fs
  | takeTypes (ts : List Ty) {below : List Frame} (hbelow : ∀ f ∈ below.head?, f.ty? = none) :
    Succeeds T takeTypes (.types ts) ((ts.map .ty).reverse ++ below) below
  | takeConstant (c : Constant) (fs : List Frame) :
    Succeeds T takeConstant (.const (c.withDefault T)) (.term (.const c) :: fs) fs
  | takeConstants (cs : List Constant) {below : List Frame}
    (hbelow : ∀ f ∈ below.head?, f.const? = none) :
    Succeeds T takeConstants (.consts (cs.map (Constant.withDefault T)))
      ((cs.map (.term <| .const ·)).reverse ++ below) below
  | takeVariables (vs : List Variable) {below : List Frame}
    (hbelow : ∀ f ∈ below.head?, f.var? = none) :
    Succeeds T takeVariables (.vars (vs.map (Variable.withDefault T)))
      ((vs.map (.term <| .var ·)).reverse ++ below) below
  | takePredicate (a : Atom) (fs : List Frame) :
    Succeeds T takePredicate (.predicate (a.withVariableDefault T)) (.atom a :: fs) fs
  | takeNoFormula :
    Succeeds T takeFormula (.formula none) [] []
  | takeFormula {f : Frame} {g : Formula} (hf : f.formula? = some g) (fs : List Frame) :
    Succeeds T takeFormula (.formula (some g)) (f :: fs) fs

/-- An operation goes well on the frames on which it does by the relation, and leaves the frames and
gives the answer that this tells. -/
theorem run_eq_ok_iff {T : Option Ty} {op : Operation} {fs : List Frame} {a : Answer}
    {b' : Builder} :
  op.run ⟨T, fs⟩ = .ok a b' ↔ ∃ fs', op.Succeeds T a fs fs' ∧ b' = ⟨T, fs'⟩
  := by
  constructor
  · intro h
    cases op with
    | pushPrimitive name =>
      cases h
      exact ⟨_, .pushPrimitive name fs, rfl⟩
    | pushVariable name =>
      cases h
      exact ⟨_, .pushVariable name fs, rfl⟩
    | pushConstant name =>
      cases h
      exact ⟨_, .pushConstant name fs, rfl⟩
    | begin s =>
      cases h
      exact ⟨_, .begin s fs, rfl⟩
    | nameAtom name =>
      obtain ⟨_, hop, rfl⟩ := bind_pure_eq_ok_iff.mp h
      obtain ⟨above, below, habove, rfl, rfl⟩ := nameAtom_eq_ok_iff.mp hop
      exact ⟨_, .nameAtom name habove below, rfl⟩
    | annotate ty =>
      obtain ⟨_, hop, rfl⟩ := bind_pure_eq_ok_iff.mp h
      obtain ⟨run, below, hrun, huntyped, hbelow, rfl, rfl⟩ := annotate_eq_ok_iff.mp hop
      exact ⟨_, .annotate ty hrun huntyped hbelow, rfl⟩
    | finish s =>
      obtain ⟨_, hop, rfl⟩ := bind_pure_eq_ok_iff.mp h
      obtain ⟨above, o, below, f, hinnermost, rfl, hparts, rfl⟩ := finish_eq_ok_iff.mp hop
      exact ⟨_, .finish hinnermost hparts, rfl⟩
    | checkEmpty operation =>
      cases fs with
      | nil =>
        cases h
        exact ⟨_, .checkEmpty operation, rfl⟩
      | cons f fs => contradiction
    | takeType =>
      obtain ⟨t, hop, rfl⟩ := bind_pure_eq_ok_iff.mp h
      obtain ⟨f, below, rfl, hf, rfl⟩ := take_eq_ok_iff.mp hop
      obtain rfl := Frame.ty?_eq_some_iff.mp hf
      exact ⟨_, .takeType t below, rfl⟩
    | takeTypes =>
      obtain ⟨ts, hop, rfl⟩ := bind_pure_eq_ok_iff.mp h
      obtain ⟨below, rfl, hbelow, rfl⟩ :=
        (takeAll_eq_ok_iff fun _ _ => Frame.ty?_eq_some_iff).mp hop
      exact ⟨_, .takeTypes ts hbelow, rfl⟩
    | takeConstant =>
      obtain ⟨_, hop, rfl⟩ := bind_pure_eq_ok_iff.mp h
      obtain ⟨c, htake, rfl⟩ := bind_get_eq_ok_iff.mp hop
      obtain ⟨f, below, rfl, hf, rfl⟩ := take_eq_ok_iff.mp htake
      obtain rfl := Frame.const?_eq_some_iff.mp hf
      exact ⟨_, .takeConstant c below, rfl⟩
    | takeConstants =>
      obtain ⟨_, hop, rfl⟩ := bind_pure_eq_ok_iff.mp h
      obtain ⟨cs, htake, rfl⟩ := bind_get_eq_ok_iff.mp hop
      obtain ⟨below, rfl, hbelow, rfl⟩ :=
        (takeAll_eq_ok_iff fun _ _ => Frame.const?_eq_some_iff).mp htake
      exact ⟨_, .takeConstants cs hbelow, rfl⟩
    | takeVariables =>
      obtain ⟨_, hop, rfl⟩ := bind_pure_eq_ok_iff.mp h
      obtain ⟨vs, htake, rfl⟩ := bind_get_eq_ok_iff.mp hop
      obtain ⟨below, rfl, hbelow, rfl⟩ :=
        (takeAll_eq_ok_iff fun _ _ => Frame.var?_eq_some_iff).mp htake
      exact ⟨_, .takeVariables vs hbelow, rfl⟩
    | takePredicate =>
      obtain ⟨_, hop, rfl⟩ := bind_pure_eq_ok_iff.mp h
      obtain ⟨a, htake, rfl⟩ := bind_get_eq_ok_iff.mp hop
      obtain ⟨f, below, rfl, hf, rfl⟩ := take_eq_ok_iff.mp htake
      obtain rfl := Frame.atom?_eq_some_iff.mp hf
      exact ⟨_, .takePredicate a below, rfl⟩
    | takeFormula =>
      obtain ⟨_, hop, rfl⟩ := bind_pure_eq_ok_iff.mp h
      rw [takeFormula?_apply] at hop
      cases fs with
      | nil =>
        cases hop
        exact ⟨_, .takeNoFormula, rfl⟩
      | cons f fs =>
        obtain ⟨g, htake, rfl⟩ := bind_pure_eq_ok_iff.mp hop
        obtain ⟨f, below, hfs, hf, rfl⟩ := take_eq_ok_iff.mp htake
        cases hfs
        exact ⟨_, .takeFormula hf fs, rfl⟩
  · rintro ⟨fs', h, rfl⟩
    cases h with
    | nameAtom name habove below =>
      exact bind_pure_eq_ok_iff.mpr
        ⟨(), nameAtom_eq_ok_iff.mpr ⟨_, below, habove, rfl, rfl⟩, rfl⟩
    | annotate ty hrun huntyped hbelow =>
      exact bind_pure_eq_ok_iff.mpr
        ⟨(), annotate_eq_ok_iff.mpr ⟨_, _, hrun, huntyped, hbelow, rfl, rfl⟩, rfl⟩
    | finish hinnermost hparts =>
      exact bind_pure_eq_ok_iff.mpr
        ⟨(), finish_eq_ok_iff.mpr ⟨_, _, _, _, hinnermost, rfl, hparts, rfl⟩, rfl⟩
    | takeTypes ts hbelow =>
      exact bind_pure_eq_ok_iff.mpr ⟨ts,
        (takeAll_eq_ok_iff fun _ _ => Frame.ty?_eq_some_iff).mpr ⟨_, rfl, hbelow, rfl⟩, rfl⟩
    | takeConstants cs hbelow =>
      exact bind_pure_eq_ok_iff.mpr ⟨_, bind_get_eq_ok_iff.mpr ⟨cs,
        (takeAll_eq_ok_iff fun _ _ => Frame.const?_eq_some_iff).mpr ⟨_, rfl, hbelow, rfl⟩, rfl⟩,
        rfl⟩
    | takeVariables vs hbelow =>
      exact bind_pure_eq_ok_iff.mpr ⟨_, bind_get_eq_ok_iff.mpr ⟨vs,
        (takeAll_eq_ok_iff fun _ _ => Frame.var?_eq_some_iff).mpr ⟨_, rfl, hbelow, rfl⟩, rfl⟩,
        rfl⟩
    | takeFormula hf =>
      rw [run, bind_pure_eq_ok_iff]
      refine ⟨_, ?_, rfl⟩
      rw [takeFormula?_apply]
      exact bind_pure_eq_ok_iff.mpr ⟨_, take_eq_ok_iff.mpr ⟨_, _, rfl, hf, rfl⟩, rfl⟩
    | _ => rfl

/-- What a step comes to where it goes well. -/
theorem step_eq_ok_iff {T : Option Ty} {op : Operation} {fs : List Frame} {a : Answer}
    {b' : Builder} :
  op.step ⟨T, fs⟩ = (.ok a, b') ↔ ∃ fs', op.Succeeds T a fs fs' ∧ b' = ⟨T, fs'⟩
  := by
  rw [← run_eq_ok_iff, step]
  cases op.run ⟨T, fs⟩ <;> simp

/-- A step goes well, or it takes off frames on top, or none. -/
theorem step_cases (op : Operation) (T : Option Ty) (fs : List Frame) :
  (∃ a fs', op.Succeeds T a fs fs' ∧ op.step ⟨T, fs⟩ = (.ok a, ⟨T, fs'⟩)) ∨
    ∃ e fs', fs' <:+ fs ∧ op.step ⟨T, fs⟩ = (.error e, ⟨T, fs'⟩)
  := by
  cases hstep : op.step ⟨T, fs⟩ with
  | mk r b' =>
    cases r with
    | ok a =>
      left
      obtain ⟨fs', hop, rfl⟩ := step_eq_ok_iff.mp hstep
      exact ⟨a, fs', hop, rfl⟩
    | error e =>
      right
      have herror : (op.step ⟨T, fs⟩).1 = .error e := by rw [hstep]
      have hafter : (op.step ⟨T, fs⟩).2 = b' := by rw [hstep]
      by_cases hop : ∃ s, op = Operation.finish s
      · obtain ⟨s, rfl⟩ := hop
        obtain ⟨hfit, hmisfit⟩ := step_snd_of_failsWith ⟨e, herror, rfl⟩
        rw [hafter] at hfit hmisfit
        by_cases hkind : e.kind.isMisfit
        · obtain ⟨above, o, below, hinnermost, -, rfl⟩ := hmisfit hkind
          refine ⟨e, below, ?_, rfl⟩
          have hfs : fs = above ++ .opened o :: below := hinnermost.frames_eq
          rw [hfs, List.append_cons]
          apply List.suffix_append
        · rw [hfit (by simpa using hkind)]
          exact ⟨e, fs, List.suffix_rfl, rfl⟩
      · rw [step_snd_of_error (not_exists.mp hop) herror] at hafter
        subst hafter
        exact ⟨e, fs, List.suffix_rfl, rfl⟩

/-! ### Runs that go well -/

section

variable {T : Option Ty} {op : Operation} {a : Answer} {fs fs' : List Frame}

theorem Succeeds.trace_cons (h : op.Succeeds T a fs fs') (ops : List Operation) :
  trace ⟨T, fs⟩ (op :: ops) = (op, .ok a) :: trace ⟨T, fs'⟩ ops
  := by
  rw [trace, step_eq_ok_iff.mpr ⟨fs', h, rfl⟩]

theorem Succeeds.runAll_cons (h : op.Succeeds T a fs fs') (ops : List Operation) :
  runAll ⟨T, fs⟩ (op :: ops) = runAll ⟨T, fs'⟩ ops
  := by
  rw [Operation.runAll_cons, step_eq_ok_iff.mpr ⟨fs', h, rfl⟩]

theorem exists_succeeds_of_ok (h : (op.step ⟨T, fs⟩).1 = .ok a) :
  ∃ fs', op.Succeeds T a fs fs'
  := by
  obtain ⟨fs', hop, -⟩ := step_eq_ok_iff.mp (Prod.ext h rfl)
  exact ⟨fs', hop⟩

end

end Operation

end PlanLang
