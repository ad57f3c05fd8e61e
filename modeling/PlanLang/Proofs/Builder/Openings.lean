import Mathlib.Data.List.TakeWhile
import PlanLang.Builder
import PlanLang.Proofs.Run

/-!
# Open constructs

The openings among the frames of a builder are the constructs that are open.  The end of a construct
removes the innermost opening, which must be of its own kind, or changes nothing.  Every other
operation, except the beginning of a construct, leaves the openings as they are, whether it fails or
not.
-/

namespace PlanLang

/-! ### The openings among frames -/

/-- The construct that a frame begins. -/
def Frame.shape? : Frame → Option Shape
  | opened o => some o.shape
  | _ => none

theorem Frame.shape?_eq_none {f : Frame} (h : f.isOpen = false) :
  f.shape? = none
  := by
  cases f <;> first | rfl | contradiction

theorem Opening.shape_ofShape (s : Shape) :
  (ofShape s).shape = s
  := by
  cases s <;> rfl

/-- The constructs that frames begin, in the order of the frames. -/
def Frame.shapes (fs : List Frame) : List Shape :=
  fs.filterMap Frame.shape?

namespace Frame

theorem shapes_append (fs gs : List Frame) :
  shapes (fs ++ gs) = shapes fs ++ shapes gs
  := List.filterMap_append

theorem shapes_eq_nil {fs : List Frame} (h : ∀ f ∈ fs, f.isOpen = false) :
  shapes fs = []
  := by
  rw [shapes, List.filterMap_eq_nil_iff]
  intro f hf
  exact shape?_eq_none (h f hf)

/-- Finished frames at the beginning do not count. -/
theorem shapes_finished_append {fs : List Frame} (h : ∀ f ∈ fs, f.isOpen = false)
    (gs : List Frame) :
  shapes (fs ++ gs) = shapes gs
  := by
  rw [shapes_append, shapes_eq_nil h, List.nil_append]

theorem shapes_finished_cons {f : Frame} (h : f.isOpen = false) (fs : List Frame) :
  shapes (f :: fs) = shapes fs
  := List.filterMap_cons_none (shape?_eq_none h)

theorem shapes_opened_cons (o : Opening) (fs : List Frame) :
  shapes (.opened o :: fs) = o.shape :: shapes fs
  := rfl

end Frame

/-! ### The innermost opening -/

/-- The frames from the innermost opening downwards. -/
def Frame.fromOpening (fs : List Frame) : List Frame :=
  fs.dropWhile (!·.isOpen)

/-- The opening `o` is the innermost one of the frames `fs`: those above it are finished. -/
structure Frame.Innermost (fs above : List Frame) (o : Opening) (below : List Frame) : Prop where
  frames_eq : fs = above ++ .opened o :: below
  finished : ∀ f ∈ above, f.isOpen = false

namespace Frame

theorem fromOpening_append {fs : List Frame} (h : ∀ f ∈ fs, f.isOpen = false) (gs : List Frame) :
  fromOpening (fs ++ gs) = fromOpening gs
  := by
  apply List.dropWhile_append_of_pos
  intro f hf
  rw [h f hf, Bool.not_false]

/-- Taking finished frames off the top takes no opening. -/
theorem fromOpening_dropWhile {p : Frame → Bool} (hp : ∀ f, p f → f.isOpen = false)
    (fs : List Frame) :
  fromOpening (fs.dropWhile p) = fromOpening fs
  := by
  have htaken : ∀ f ∈ fs.takeWhile p, f.isOpen = false := by
    intro f hf
    exact hp f (List.mem_takeWhile_imp hf)
  calc fromOpening (fs.dropWhile p)
      = fromOpening (fs.takeWhile p ++ fs.dropWhile p) := (fromOpening_append htaken _).symm
    _ = fromOpening fs := by rw [List.takeWhile_append_dropWhile]

theorem finished_takeWhile (fs : List Frame) :
  ∀ f ∈ fs.takeWhile (!·.isOpen), f.isOpen = false
  := by
  intro f hf
  simpa using List.mem_takeWhile_imp hf

theorem shapes_fromOpening (fs : List Frame) :
  shapes (fromOpening fs) = shapes fs
  := calc shapes (fromOpening fs)
      = shapes (fs.takeWhile (!·.isOpen) ++ fromOpening fs) :=
        (shapes_finished_append (finished_takeWhile fs) _).symm
    _ = shapes fs := by rw [fromOpening, List.takeWhile_append_dropWhile]

theorem Innermost.fromOpening_eq {fs above below : List Frame} {o : Opening}
    (h : Innermost fs above o below) :
  fromOpening fs = .opened o :: below
  := by
  rw [h.frames_eq, fromOpening_append h.finished]
  rfl

theorem exists_innermost_of_fromOpening {fs below : List Frame} {o : Opening}
    (h : fromOpening fs = .opened o :: below) :
  ∃ above, Innermost fs above o below
  := by
  refine ⟨fs.takeWhile (!·.isOpen), ?_, finished_takeWhile fs⟩
  rw [← h, fromOpening, List.takeWhile_append_dropWhile]

/-- All frames are finished, or one of the openings is the innermost one. -/
theorem finished_or_exists_innermost (fs : List Frame) :
  (∀ f ∈ fs, f.isOpen = false) ∨ ∃ above o below, Innermost fs above o below
  := by
  induction fs with
  | nil =>
    left
    intro f hf
    contradiction
  | cons f fs ih =>
    by_cases hf : f.isOpen
    · cases f with
      | opened o => exact .inr ⟨[], o, fs, rfl, by simp⟩
      | _ => contradiction
    · rw [Bool.not_eq_true] at hf
      obtain hall | ⟨above, o, below, rfl, habove⟩ := ih
      · exact .inl (List.forall_mem_cons.mpr ⟨hf, hall⟩)
      · exact .inr ⟨f :: above, o, below, rfl, List.forall_mem_cons.mpr ⟨hf, habove⟩⟩

end Frame

/-! ### Finished constructs -/

/-- The frames of a construct do not fit together: there are too many or too few of them, or one
is of the wrong kind. -/
def BuildError.Kind.isMisfit : Kind → Bool
  | arity _ _ | mismatch _ _ => true
  | _ => false

namespace Opening

open BuildError

/-- The frame is not an opening, or the parts of the construct do not fit together. -/
def IsFinished (r : Except Kind Frame) : Prop :=
  match r with
  | .ok f => f.isOpen = false
  | .error kind => kind.isMisfit

/-- A list is not gone through where there is an error for one of its members. -/
theorem exists_of_mapM_error {ε α β : Type} {f : α → Except ε β} {xs : List α} {e : ε}
    (h : xs.mapM f = .error e) :
  ∃ x ∈ xs, f x = .error e
  := by
  induction xs with
  | nil => contradiction
  | cons x xs ih =>
    rw [List.mapM_cons] at h
    cases hx : f x with
    | error e' =>
      rw [hx] at h
      cases h
      exact ⟨x, List.mem_cons_self, hx⟩
    | ok b =>
      rw [hx] at h
      cases hxs : xs.mapM f with
      | error e' =>
        rw [hxs] at h
        cases h
        obtain ⟨y, hy, herror⟩ := ih hxs
        exact ⟨y, List.mem_cons_of_mem _ hy, herror⟩
      | ok bs =>
        rw [hxs] at h
        contradiction

/-- Where parts are not collected, one of them is of the wrong kind. -/
theorem isFinished_collect_bind {α : Type} {expected : String} {view : Frame → Option α}
    {parts : List Frame} {f : List α → Except Kind Frame} (h : ∀ as, IsFinished (f as)) :
  IsFinished (collect expected view parts >>= f)
  := by
  cases hparts : collect expected view parts with
  | error kind =>
    obtain ⟨p, -, hp⟩ := exists_of_mapM_error hparts
    split at hp
    · contradiction
    · cases hp
      rfl
  | ok as => exact h as

/-- The parts of a construct make up a finished frame or do not fit together, unless the construct
is an atom without a name. -/
theorem isFinished_assemble (T : Option Ty) {o : Opening} (ho : o ≠ .atom none)
    (parts : List Frame) :
  IsFinished (o.assemble T parts)
  := by
  cases o with
  | either =>
    apply isFinished_collect_bind
    intro ts
    cases ts <;> rfl
  | atom name =>
    cases name with
    | none => contradiction
    | some name => exact isFinished_collect_bind fun _ => rfl
  | negation =>
    apply isFinished_collect_bind
    intro fs
    split <;> rfl
  | conjunction => exact isFinished_collect_bind fun _ => rfl
  | equality =>
    change IsFinished (assembleEquality parts)
    unfold assembleEquality
    split
    · rfl
    · apply isFinished_collect_bind
      intro ts
      split <;> rfl
  | universal =>
    change IsFinished (assembleUniversal T parts)
    simp only [assembleUniversal]
    split
    · rfl
    · split
      · rfl
      · split
        · rfl
        · exact isFinished_collect_bind fun _ => rfl
  | conditional =>
    apply isFinished_collect_bind
    intro fs
    split <;> rfl

end Opening

namespace Builder

variable {α β : Type}

/-- The innermost opening is found together with the frames above and below it. -/
theorem innermost?_of_innermost {fs above below : List Frame} {o : Opening}
    (h : Frame.Innermost fs above o below) :
  innermost? fs = some (above, o, below)
  := by
  have hdrop : fs.dropWhile (!·.isOpen) = .opened o :: below := h.fromOpening_eq
  have htake : fs.takeWhile (!·.isOpen) = above := by
    have happend : fs.takeWhile (!·.isOpen) ++ fs.dropWhile (!·.isOpen) = fs :=
      List.takeWhile_append_dropWhile
    rw [hdrop] at happend
    exact List.append_cancel_right (happend.trans h.frames_eq)
  simp only [innermost?, hdrop, htake]

/-- No opening is found among finished frames. -/
theorem innermost?_eq_none {fs : List Frame} (h : ∀ f ∈ fs, f.isOpen = false) :
  innermost? fs = none
  := by
  have hdrop : fs.dropWhile (!·.isOpen) = [] := by
    rw [List.dropWhile_eq_nil_iff]
    intro f hf
    rw [h f hf, Bool.not_false]
  simp only [innermost?, hdrop]

/-! ### Ends of constructs -/

/-- Where nothing is open, nothing ends. -/
theorem finish_of_finished {b : Builder} (h : ∀ f ∈ b.frames, f.isOpen = false) (s : Shape) :
  finish s b = fail s.endLabel .stackUnderflow b
  := by
  simp only [finish, innermost?_eq_none h]

section

variable {b : Builder} {above below : List Frame} {o : Opening}

/-- A construct does not end where another one has to end first. -/
theorem finish_of_shape_ne (h : Frame.Innermost b.frames above o below) {s : Shape}
    (hs : o.shape ≠ s) :
  finish s b = fail s.endLabel (.unbalanced o.shape.openLabel) b
  := by
  simp only [finish, innermost?_of_innermost h, ne_eq, hs, not_false_eq_true, if_true]

/-- The end of the innermost construct changes nothing if this is an atom without a name.  Otherwise
it removes the opening and the frames above it, and puts a finished frame there unless they do not
fit together. -/
theorem finish_of_shape_eq (h : Frame.Innermost b.frames above o below) {s : Shape}
    (hs : o.shape = s) :
  finish s b = fail s.endLabel .nameless b ∨
    (∃ f, f.isOpen = false ∧ finish s b = .ok () { b with frames := f :: below }) ∨
    ∃ kind, kind.isMisfit ∧
      finish s b = .error ⟨kind, s.endLabel, b.depth⟩ { b with frames := below }
  := by
  simp only [finish, innermost?_of_innermost h, ne_eq, hs, not_true_eq_false, if_false]
  by_cases ho : o = .atom none
  · subst ho
    exact .inl rfl
  · right
    have hfinished := Opening.isFinished_assemble b.defaultType ho above.reverse
    cases hassemble : o.assemble b.defaultType above.reverse with
    | ok f =>
      rw [hassemble] at hfinished
      exact .inl ⟨f, hfinished, rfl⟩
    | error kind =>
      rw [hassemble] at hfinished
      cases kind with
      | nameless => contradiction
      | _ => exact .inr ⟨_, hfinished, rfl⟩

end

/-- The end of a construct changes nothing, or it removes an opening of its own kind and the
finished frames above it, and puts a finished frame there unless they do not fit together. -/
theorem finish_cases (s : Shape) (b : Builder) :
  (∃ kind, kind.isMisfit = false ∧ finish s b = fail s.endLabel kind b) ∨
    ∃ above o below, Frame.Innermost b.frames above o below ∧ o.shape = s ∧
      ((∃ f, f.isOpen = false ∧ finish s b = .ok () { b with frames := f :: below }) ∨
        ∃ kind, kind.isMisfit ∧
          finish s b = .error ⟨kind, s.endLabel, b.depth⟩ { b with frames := below })
  := by
  obtain hfinished | ⟨above, o, below, h⟩ := Frame.finished_or_exists_innermost b.frames
  · exact .inl ⟨.stackUnderflow, rfl, finish_of_finished hfinished s⟩
  · by_cases hs : o.shape = s
    · obtain hnameless | hfinish := finish_of_shape_eq h hs
      · exact .inl ⟨.nameless, rfl, hnameless⟩
      · exact .inr ⟨above, o, below, h, hs, hfinish⟩
    · exact .inl ⟨.unbalanced o.shape.openLabel, rfl, finish_of_shape_ne h hs⟩

/-! ### Operations that leave the openings alone -/

/-- The constructs that are open, the innermost first. -/
def openShapes (b : Builder) : List Shape :=
  Frame.shapes b.frames

/-- The builder after an operation, whether it fails or not. -/
def after (op : Build α) (b : Builder) : Builder :=
  match op b with
  | .ok _ b' | .error _ b' => b'

/-- Answers are made from what an operation gives. -/
theorem bind_pure_apply (op : Build α) (f : α → β) (b : Builder) :
  (do return f (← op) : Build β) b =
    match op b with
    | .ok a b' => .ok (f a) b'
    | .error e b' => .error e b'
  := by
  simp only [Bind.bind, EStateM.bind]
  cases op b <;> rfl

/-- Answers may be completed from the builder. -/
theorem bind_get_apply (op : Build α) (f : α → Builder → β) (b : Builder) :
  (do let a ← op; return f a (← get) : Build β) b =
    match op b with
    | .ok a b' => .ok (f a b') b'
    | .error e b' => .error e b'
  := by
  simp only [Bind.bind, EStateM.bind]
  cases op b <;> rfl

/-- Whether the operation fails or not, the same constructs are open afterwards. -/
def KeepsOpen (op : Build α) : Prop :=
  ∀ b, (after op b).openShapes = b.openShapes

/-- Whether the operation fails or not, the innermost opening and the frames below it are there
afterwards, with finished frames above it. -/
def KeepsBelow (op : Build α) : Prop :=
  ∀ b, Frame.fromOpening (after op b).frames = Frame.fromOpening b.frames

theorem KeepsBelow.keepsOpen {op : Build α} (h : KeepsBelow op) :
  KeepsOpen op
  := by
  intro b
  rw [openShapes, openShapes, ← Frame.shapes_fromOpening, h b, Frame.shapes_fromOpening]

theorem after_bind_pure (op : Build α) (f : α → β) (b : Builder) :
  after (do return f (← op)) b = after op b
  := by
  rw [after, bind_pure_apply, after]
  cases op b <;> rfl

theorem after_bind_get (op : Build α) (f : α → Builder → β) (b : Builder) :
  after (do let a ← op; return f a (← get)) b = after op b
  := by
  rw [after, bind_get_apply, after]
  cases op b <;> rfl

theorem KeepsBelow.bind_pure {op : Build α} (h : KeepsBelow op) (f : α → β) :
  KeepsBelow (do return f (← op))
  := by
  intro b
  rw [after_bind_pure, h b]

theorem KeepsBelow.bind_get {op : Build α} (h : KeepsBelow op) (f : α → Builder → β) :
  KeepsBelow (do let a ← op; return f a (← get))
  := by
  intro b
  rw [after_bind_get, h b]

theorem keepsBelow_checkEmpty (operation : String) :
  KeepsBelow (checkEmpty operation)
  := by
  intro b
  have hafter : after (checkEmpty operation) b = b := by
    unfold after checkEmpty
    cases b.frames <;> rfl
  rw [hafter]

theorem keepsBelow_push {f : Frame} (hf : f.isOpen = false) :
  KeepsBelow (push f)
  := by
  intro b
  have hfinished : ∀ g ∈ [f], g.isOpen = false := by simpa using hf
  exact Frame.fromOpening_append hfinished b.frames

/-- Naming the innermost open atom does not close it. -/
theorem shapes_fillName (name : String) (fs : List Frame) :
  Frame.shapes (fillName name fs) = Frame.shapes fs
  := by
  induction fs with
  | nil => rfl
  | cons f fs ih =>
    have hcons : Frame.shapes (f :: fillName name fs) = Frame.shapes (f :: fs) := by
      rw [← List.singleton_append, Frame.shapes_append, ih, ← Frame.shapes_append,
        List.singleton_append]
    cases f with
    | opened o =>
      cases o with
      | atom name' => rfl
      | _ => exact hcons
    | _ => exact hcons

theorem keepsOpen_nameAtom (name : String) :
  KeepsOpen (nameAtom name)
  := by
  intro b
  cases hname : openName? b.frames with
  | none => simp only [after, nameAtom, hname, fail]
  | some given =>
    cases given with
    | some _ => simp only [after, nameAtom, hname, fail]
    | none =>
      simp only [after, nameAtom, hname]
      apply shapes_fillName

/-- The terms that are given a type are no openings, with the type or without. -/
theorem keepsBelow_annotate (ty : Ty) :
  KeepsBelow (annotate ty)
  := by
  intro b
  have hterm : ∀ f : Frame, f.isUntyped → f.isOpen = false ∧ (f.withType ty).isOpen = false := by
    intro f hf
    cases f <;> first | contradiction | exact ⟨rfl, rfl⟩
  cases hrun : b.frames.takeWhile Frame.isUntyped with
  | nil => simp only [after, annotate, hrun, fail]
  | cons f fs =>
    have htyped : ∀ g ∈ (f :: fs).map (Frame.withType ty), g.isOpen = false := by
      intro g hg
      obtain ⟨g', hg', rfl⟩ := List.mem_map.mp hg
      rw [← hrun] at hg'
      exact (hterm g' (List.mem_takeWhile_imp hg')).2
    simp only [after, annotate, hrun]
    rw [Frame.fromOpening_append htyped, Frame.fromOpening_dropWhile fun f hf => (hterm f hf).1]

/-- What is looked for is not an opening. -/
def IsFinishedView (view : Frame → Option α) : Prop :=
  ∀ f, (view f).isSome → f.isOpen = false

theorem isFinishedView_of_opened (view : Frame → Option α) (h : ∀ o, view (.opened o) = none) :
  IsFinishedView view
  := by
  intro f hf
  cases f with
  | opened o =>
    rw [h] at hf
    contradiction
  | _ => rfl

theorem keepsBelow_take {operation expected : String} {view : Frame → Option α}
    (hview : IsFinishedView view) :
  KeepsBelow (take operation expected view)
  := by
  intro b
  cases hframes : b.frames with
  | nil => simp only [after, take, hframes, fail]
  | cons f fs =>
    cases hf : view f with
    | none => simp only [after, take, hframes, hf, fail]
    | some a =>
      simp only [after, take, hframes, hf]
      have hfinished : ∀ g ∈ [f], g.isOpen = false := by
        simpa using hview f (by rw [hf]; rfl)
      exact (Frame.fromOpening_append hfinished fs).symm

theorem keepsBelow_takeAll {view : Frame → Option α} (hview : IsFinishedView view) :
  KeepsBelow (takeAll view)
  := fun b => Frame.fromOpening_dropWhile hview b.frames

/-- There is no formula where no frame is left, and otherwise it is the top frame. -/
theorem takeFormula?_apply (b : Builder) :
  takeFormula? b =
    if b.isEmpty then .ok none b
    else (do return some (← take "take_optional_formula" "formula" Frame.formula?) : Build _) b
  := by
  change (if b.isEmpty then pure none
    else do return some (← take "take_optional_formula" "formula" Frame.formula?) : Build _) b = _
  split <;> rfl

theorem keepsBelow_takeFormula? :
  KeepsBelow takeFormula?
  := by
  intro b
  have hview := isFinishedView_of_opened Frame.formula? fun _ => rfl
  rw [after, takeFormula?_apply]
  by_cases hempty : b.isEmpty
  · rw [if_pos hempty]
  · rw [if_neg hempty]
    exact ((keepsBelow_take hview).bind_pure some) b

end Builder

end PlanLang
