import Mathlib
import PlanLang.Proofs.Builder.Success
import PlanLang.Proofs.Draft.Assembly

/-!
# Checkpoints

Where a part of a description is left and nothing is left over, the builder of a draft is empty.
What comes next is drafted as if nothing had come before it: each event comes to the same, and what
is noted goes behind what has been noted already.
-/

namespace PlanLang

namespace Builder

variable {α β : Type}

/-! ### The default type -/

/-- Whether the operation fails or not, the default type stays as it is. -/
def KeepsDefault (op : Build α) : Prop :=
  ∀ b, (after op b).defaultType = b.defaultType

theorem KeepsDefault.bind {op : Build α} {f : α → Build β} (h : KeepsDefault op)
    (hf : ∀ a, KeepsDefault (f a)) :
  KeepsDefault (op >>= f)
  := by
  intro b
  have hop := h b
  simp only [after, Bind.bind, EStateM.bind] at hop ⊢
  cases hb : op b with
  | ok a b' =>
    rw [hb] at hop
    exact (hf a b').trans hop
  | error e b' =>
    rw [hb] at hop
    exact hop

theorem keepsDefault_run (op : Operation) :
  KeepsDefault op.run
  := by
  rintro ⟨T, fs⟩
  rw [← Operation.step_snd]
  obtain ⟨_, _, -, h⟩ | ⟨_, _, -, h⟩ := op.step_cases T fs
  · rw [h]
  · rw [h]

/-- An operation keeps the default type if the same operation with another answer does. -/
theorem KeepsDefault.of_run {op : Build α} {f : α → Answer} (o : Operation)
    (h : o.run = do return f (← op)) :
  KeepsDefault op
  := by
  intro b
  rw [← after_bind_pure op f, ← h, keepsDefault_run]

theorem keepsDefault_onEvent (e : Event) :
  KeepsDefault (onEvent e)
  := by
  cases e with
  | name r text =>
    cases r
    · exact .of_run (.pushPrimitive text) rfl
    · exact .of_run (.pushVariable text) rfl
    · exact .of_run (.pushConstant text) rfl
    · exact .of_run (.nameAtom text) rfl
  | enter c =>
    cases c with
    | shape s => exact .of_run (.begin s) rfl
    | _ => exact fun _ => rfl
  | leave c =>
    cases c with
    | shape s => exact .of_run (.finish s) rfl
    | typedList => exact .bind (.of_run .takeType rfl) fun t => .of_run (.annotate t) rfl
    | part p => exact fun _ => rfl

end Builder

namespace Draft

variable {α β : Type}

/-! ### Runs of events -/

/-- What an event comes to, and the draft after it. -/
def step (e : Event) (d : Draft) : Except BuildError Unit × Draft :=
  match onEvent e d with
  | .ok _ d => (.ok (), d)
  | .error e d => (.error e, d)

/-- What the events of a run that starts from a draft come to, one after the other, also after one
that has failed. -/
def trace (d : Draft) : List Event → List (Except BuildError Unit)
  | [] => []
  | e :: es => (step e d).1 :: trace (step e d).2 es

/-- The draft at the end of a run. -/
def runAll (d : Draft) (es : List Event) : Draft :=
  es.foldl (fun d e => (step e d).2) d

/-! ### Drafts with notes in front -/

/-- The draft `d` is building what `d'` is building, and its lists are those of `d'` behind those of
`base`. -/
structure CarriesOn (T : Option Ty) (base d d' : Draft) : Prop where
  defaultType : d.builder.defaultType = T
  builder : d.builder = d'.builder
  types : d.types = base.types ++ d'.types
  predicates : d.predicates = base.predicates ++ d'.predicates
  init : d.init = base.init ++ d'.init

/-- Two results are the same but for the notes in front. -/
inductive CarryOn (T : Option Ty) (base : Draft) :
    EStateM.Result BuildError Draft α → EStateM.Result BuildError Draft α → Prop where
  | ok (a : α) {d d' : Draft} (h : CarriesOn T base d d') : CarryOn T base (.ok a d) (.ok a d')
  | error (e : BuildError) {d d' : Draft} (h : CarriesOn T base d d') :
    CarryOn T base (.error e d) (.error e d')

/-- The operation does not depend on what has been noted, and adds to it. -/
def IsFresh (op : Drafting α) : Prop :=
  ∀ T base d d', CarriesOn T base d d' → CarryOn T base (op d) (op d')

theorem isFresh_pure (a : α) :
  IsFresh (pure a)
  := fun _ _ _ _ h => .ok a h

theorem IsFresh.bind {op : Drafting α} {f : α → Drafting β} (h : IsFresh op)
    (hf : ∀ a, IsFresh (f a)) :
  IsFresh (op >>= f)
  := by
  intro T base d d' hd
  have hop := h T base d d' hd
  simp only [Bind.bind, EStateM.bind]
  generalize op d = r at hop
  generalize op d' = r' at hop
  cases hop with
  | ok a hnext => exact hf a T base _ _ hnext
  | error e hnext => exact .error e hnext

theorem isFresh_modify {f : Draft → Draft}
    (h : ∀ {T base d d'}, CarriesOn T base d d' → CarriesOn T base (f d) (f d')) :
  IsFresh (modify f : Drafting Unit)
  := fun _ _ _ _ hd => .ok () (h hd)

/-- What is done on the builder does not depend on notes. -/
theorem isFresh_build {op : Build α} (h : Builder.KeepsDefault op) :
  IsFresh (build op)
  := by
  intro T base d d' hd
  have hdefault := h d.builder
  rw [hd.defaultType] at hdefault
  simp only [build, Builder.after, ← hd.builder] at hdefault ⊢
  cases hop : op d.builder with
  | ok a b =>
    rw [hop] at hdefault
    exact .ok a ⟨hdefault, rfl, hd.types, hd.predicates, hd.init⟩
  | error e b =>
    rw [hop] at hdefault
    exact .error e ⟨hdefault, rfl, hd.types, hd.predicates, hd.init⟩

theorem isFresh_fail (operation : String) (kind : BuildError.Kind) :
  IsFresh (build (Builder.fail operation kind : Build α))
  := isFresh_build fun _ => rfl

theorem isFresh_checkEmpty (operation : String) :
  IsFresh (build (Builder.checkEmpty operation))
  := isFresh_build (.of_run (.checkEmpty operation) rfl)

/-- What has been built for a part is noted, and nothing may be left over. -/
theorem isFresh_note {f : Draft → Draft} (operation : String)
    (h : ∀ {T base d d'}, CarriesOn T base d d' → CarriesOn T base (f d) (f d')) :
  IsFresh (do modify f; build (Builder.checkEmpty operation))
  := (isFresh_modify h).bind fun _ => isFresh_checkEmpty operation

theorem isFresh_declareTypes (parent : Ty) :
  IsFresh (declareTypes parent)
  := by
  have hname : ∀ name, IsFresh (declareType parent name) := by
    intro name
    unfold declareType
    cases name.primitiveName? with
    | none => exact isFresh_fail _ _
    | some n =>
      apply isFresh_modify
      intro T base d d' hd
      exact { hd with types := by rw [hd.types, List.append_assoc] }
  have hnames : ∀ names : List Ty, IsFresh (names.forM (declareType parent)) := by
    intro names
    induction names with
    | nil => exact isFresh_pure _
    | cons name names ih => exact (hname name).bind fun _ => ih
  apply (isFresh_build (.of_run .takeTypes rfl)).bind
  intro names
  cases names with
  | nil => exact isFresh_fail _ _
  | cons name names => exact hnames (name :: names)

/-- Where the types are left, it depends on the builder whether names remain to be declared. -/
theorem leave_types_eq (d : Draft) :
  leave .types d =
    if d.builder.isEmpty then build (Builder.checkEmpty "types") d
    else (do declareTypes .object; build (Builder.checkEmpty "types")) d
  := by
  cases h : d.builder.isEmpty with
  | false => exact leave_types_of_isEmpty h
  | true =>
    have hget : (get : Drafting Draft) d = .ok d d := rfl
    rw [leave, bind_ok hget, h]
    rfl

theorem isFresh_leave (p : Part) :
  IsFresh (leave p)
  := by
  have hformula : IsFresh (build Builder.takeFormula?) := isFresh_build (.of_run .takeFormula rfl)
  cases p with
  | types =>
    intro T base d d' hd
    rw [leave_types_eq, leave_types_eq, ← hd.builder]
    split
    · exact isFresh_checkEmpty _ T base d d' hd
    · exact ((isFresh_declareTypes _).bind fun _ => isFresh_checkEmpty _) T base d d' hd
  | subtypes => exact (isFresh_build (.of_run .takeType rfl)).bind isFresh_declareTypes
  | constants | objects =>
    apply (isFresh_build (.of_run .takeConstants rfl)).bind
    intro cs
    exact isFresh_note _ fun hd => { hd with }
  | predicate =>
    apply (isFresh_build (.of_run .takePredicate rfl)).bind
    intro a
    apply isFresh_note
    intro T base d d' hd
    exact { hd with predicates := by rw [hd.predicates, List.append_assoc] }
  | parameters =>
    apply (isFresh_build (.of_run .takeVariables rfl)).bind
    intro vs
    exact isFresh_note _ fun hd => { hd with }
  | precondition | effect | goal =>
    apply hformula.bind
    intro f
    exact isFresh_note _ fun hd => { hd with }
  | initLiteral =>
    apply hformula.bind
    intro f
    cases f with
    | none => exact isFresh_fail _ _
    | some f =>
      apply isFresh_note
      intro T base d d' hd
      exact { hd with init := by rw [hd.init, List.append_assoc] }

theorem isFresh_onEvent (e : Event) :
  IsFresh (onEvent e)
  := by
  have hbuild := isFresh_build (Builder.keepsDefault_onEvent e)
  cases e with
  | leave c =>
    cases c with
    | part p => exact isFresh_leave p
    | _ => exact hbuild
  | _ => exact hbuild

/-- An event comes to the same on two drafts that differ in the notes in front. -/
theorem CarriesOn.step {T : Option Ty} {base d d' : Draft} (h : CarriesOn T base d d') (e : Event) :
  (Draft.step e d).1 = (Draft.step e d').1 ∧
    CarriesOn T base (Draft.step e d).2 (Draft.step e d').2
  := by
  have hevent := isFresh_onEvent e T base d d' h
  unfold Draft.step
  generalize onEvent e d = r at hevent
  generalize onEvent e d' = r' at hevent
  cases hevent with
  | ok _ hnext => exact ⟨rfl, hnext⟩
  | error _ hnext => exact ⟨rfl, hnext⟩

/-- The events of a run come to the same on two drafts that differ in the notes in front. -/
theorem CarriesOn.run {T : Option Ty} {base d d' : Draft} (h : CarriesOn T base d d')
    (es : List Event) :
  trace d es = trace d' es ∧ CarriesOn T base (runAll d es) (runAll d' es)
  := by
  induction es generalizing d d' with
  | nil => exact ⟨rfl, h⟩
  | cons e es ih =>
    obtain ⟨hstep, hnext⟩ := h.step e
    obtain ⟨htrace, hrun⟩ := ih hnext
    rw [trace, trace, hstep, htrace]
    exact ⟨rfl, hrun⟩

/-! ### Leaving a part -/

/-- Where the operation goes well, no frames are left. -/
def EndsEmpty (op : Drafting Unit) : Prop :=
  ∀ d d', op d = .ok () d' → d'.builder.frames = []

theorem EndsEmpty.bind {f : α → Drafting Unit} (hf : ∀ a, EndsEmpty (f a)) (op : Drafting α) :
  EndsEmpty (op >>= f)
  := by
  intro d d' h
  obtain ⟨a, t, -, hlast⟩ := exists_of_bind_ok h
  exact hf a t d' hlast

theorem endsEmpty_fail (operation : String) (kind : BuildError.Kind) :
  EndsEmpty (build (Builder.fail operation kind))
  := by
  intro d d' h
  contradiction

theorem endsEmpty_checkEmpty (operation : String) :
  EndsEmpty (build (Builder.checkEmpty operation))
  := by
  rintro ⟨⟨T, fs⟩⟩ d' h
  cases fs with
  | nil =>
    cases h
    rfl
  | cons f fs => contradiction

/-- No frames are left where a part is left.  Groups of declared types are an exception, since
further types follow them. -/
theorem endsEmpty_leave {p : Part} (hp : p ≠ .subtypes) :
  EndsEmpty (leave p)
  := by
  have hnote : ∀ (f : Draft → Draft) operation,
      EndsEmpty (do modify f; build (Builder.checkEmpty operation)) :=
    fun f operation => .bind (fun _ => endsEmpty_checkEmpty operation) _
  cases p with
  | subtypes => exact absurd rfl hp
  | types =>
    intro d d' h
    rw [leave_types_eq] at h
    split at h
    · exact endsEmpty_checkEmpty _ d d' h
    · exact EndsEmpty.bind (fun _ => endsEmpty_checkEmpty _) _ d d' h
  | initLiteral =>
    apply EndsEmpty.bind
    intro f
    cases f with
    | none => exact endsEmpty_fail _ _
    | some f => exact hnote _ _
  | _ => exact .bind (fun _ => hnote _ _) _

/-- A part of a description is left after any run of events, also one with errors, and nothing is
left over.  Then all further events come to what they come to on a draft without entries, and what
these declare goes behind what is there. -/
theorem trace_behind_checkpoint (T : Option Ty) (es : List Event) {p : Part} (hp : p ≠ .subtypes)
    (hok : (step (.leave (.part p)) (runAll (.new T) es)).1 = .ok ()) (more : List Event) :
  let d := runAll (.new T) (es ++ [.leave (.part p)])
  trace d more = trace (.new T) more ∧
    (runAll d more).types = d.types ++ (runAll (.new T) more).types ∧
    (runAll d more).predicates = d.predicates ++ (runAll (.new T) more).predicates ∧
    (runAll d more).init = d.init ++ (runAll (.new T) more).init
  := by
  intro d
  have hlast : d = (step (.leave (.part p)) (runAll (.new T) es)).2 := by
    simp only [d, runAll, List.foldl_append, List.foldl_cons, List.foldl_nil]
  have hempty : d.builder.frames = [] := by
    unfold step at hok hlast
    cases hleave : onEvent (.leave (.part p)) (runAll (.new T) es) with
    | ok u t =>
      rw [hleave] at hlast
      rw [hlast]
      exact endsEmpty_leave hp _ t hleave
    | error e t =>
      rw [hleave] at hok
      contradiction
  have hdefault : d.builder.defaultType = T := by
    have hnew : CarriesOn T (.new T) (.new T) (.new T) := ⟨rfl, rfl, rfl, rfl, rfl⟩
    exact (hnew.run _).2.defaultType
  have hbuilder : d.builder = .new T := by
    rw [Builder.new, ← hempty, ← hdefault]
  have hbehind : CarriesOn T d d (.new T) :=
    ⟨hdefault, hbuilder, (List.append_nil _).symm, (List.append_nil _).symm,
      (List.append_nil _).symm⟩
  obtain ⟨htrace, hrun⟩ := hbehind.run more
  exact ⟨htrace, hrun.types, hrun.predicates, hrun.init⟩

/-- Types are left after an error, and others are declared behind them, after another error. -/
theorem trace_behind_checkpoint_types :
  let es : List Event := [.name .type "Truck", .leave .typedList, .name .type "Car",
    .name .type "vehicle", .leave (.part .subtypes)]
  let more : List Event := [.leave (.shape .negation), .name .type "place", .leave (.part .types)]
  let d := Draft.runAll (.new none) (es ++ [.leave (.part .types)])
  (step (.leave (.part .types)) (runAll (.new none) es)).1 = .ok () ∧
    trace d more = [.error ⟨.stackUnderflow, "end_not", 0⟩, .ok (), .ok ()] ∧
    (runAll d more).types = [⟨"car", .primitive "vehicle"⟩, ⟨"place", .primitive "object"⟩]
  := by
  intro es more d
  have hok : (step (.leave (.part .types)) (runAll (.new none) es)).1 = .ok () := by cbv
  obtain ⟨htrace, htypes, -, -⟩ := trace_behind_checkpoint none es (by decide) hok more
  have hd : (runAll (.new none) (es ++ [.leave (.part .types)])).types
      = [⟨"car", .primitive "vehicle"⟩] := by
    cbv
  have hmore : (runAll (.new none) more).types = [⟨"place", .primitive "object"⟩] := by cbv
  rw [hd, hmore] at htypes
  exact ⟨hok, htrace.trans (by cbv), htypes⟩

end Draft

end PlanLang
