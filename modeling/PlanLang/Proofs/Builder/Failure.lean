import Mathlib
import PlanLang.Proofs.Builder.Balance

/-!
# Failing operations

An operation that fails leaves the frames of a builder as they are, with one exception: the end of a
construct whose frames do not fit together removes them and their opening.  What is below the
innermost opening is not touched by any operation, but the name of an atom is put where the atom has
been begun.
-/

namespace PlanLang

namespace Builder

variable {α β : Type}

/-! ### Operations that change nothing when they fail -/

/-- Where the operation fails, it changes nothing, and the error tells the number of frames. -/
def FailsInPlace (op : Build α) : Prop :=
  ∀ b e b', op b = .error e b' → e.depth = b.depth ∧ b' = b

theorem FailsInPlace.bind_pure {op : Build α} (h : FailsInPlace op) (f : α → β) :
  FailsInPlace (do return f (← op))
  := by
  intro b e b' herror
  rw [bind_pure_apply] at herror
  cases hop : op b with
  | ok a b'' =>
    rw [hop] at herror
    contradiction
  | error e' b'' =>
    rw [hop] at herror
    cases herror
    exact h b e b' hop

theorem FailsInPlace.bind_get {op : Build α} (h : FailsInPlace op) (f : α → Builder → β) :
  FailsInPlace (do let a ← op; return f a (← get))
  := by
  intro b e b' herror
  rw [bind_get_apply] at herror
  cases hop : op b with
  | ok a b'' =>
    rw [hop] at herror
    contradiction
  | error e' b'' =>
    rw [hop] at herror
    cases herror
    exact h b e b' hop

theorem failsInPlace_fail (operation : String) (kind : BuildError.Kind) :
  FailsInPlace (fail operation kind : Build α)
  := by
  intro b e b' herror
  cases herror
  exact ⟨rfl, rfl⟩

theorem failsInPlace_push (f : Frame) :
  FailsInPlace (push f)
  := by
  intro b e b' herror
  contradiction

theorem failsInPlace_checkEmpty (operation : String) :
  FailsInPlace (checkEmpty operation)
  := by
  intro b e b' herror
  unfold checkEmpty at herror
  split at herror
  · contradiction
  · exact failsInPlace_fail _ _ b e b' herror

theorem failsInPlace_nameAtom (name : String) :
  FailsInPlace (nameAtom name)
  := by
  intro b e b' herror
  unfold nameAtom at herror
  split at herror
  · exact failsInPlace_fail _ _ b e b' herror
  · exact failsInPlace_fail _ _ b e b' herror
  · contradiction

theorem failsInPlace_annotate (ty : Ty) :
  FailsInPlace (annotate ty)
  := by
  intro b e b' herror
  unfold annotate at herror
  split at herror
  · exact failsInPlace_fail _ _ b e b' herror
  · contradiction

theorem failsInPlace_take (operation expected : String) (view : Frame → Option α) :
  FailsInPlace (take operation expected view)
  := by
  intro b e b' herror
  unfold take at herror
  split at herror
  · exact failsInPlace_fail _ _ b e b' herror
  · split at herror
    · exact failsInPlace_fail _ _ b e b' herror
    · contradiction

theorem failsInPlace_takeAll (view : Frame → Option α) :
  FailsInPlace (takeAll view)
  := by
  intro b e b' herror
  contradiction

theorem failsInPlace_takeFormula? :
  FailsInPlace takeFormula?
  := by
  intro b e b' herror
  rw [takeFormula?_apply] at herror
  split at herror
  · contradiction
  · exact (failsInPlace_take _ _ _).bind_pure some b e b' herror

/-! ### Naming an atom -/

/-- The innermost open atom has finished frames and openings of other constructs above it, and the
name is put there. -/
theorem exists_of_openName? {fs : List Frame} {given : Option String}
    (h : openName? fs = some given) :
  ∃ above below : List Frame, fs = above ++ .opened (.atom given) :: below ∧
    (∀ f ∈ above, f.shape? ≠ some .atom) ∧
    ∀ name, fillName name fs = above ++ .opened (.atom (some name)) :: below
  := by
  induction fs with
  | nil => contradiction
  | cons f fs ih =>
    have hcons : f.shape? ≠ some .atom → openName? fs = some given →
        (∀ name, fillName name (f :: fs) = f :: fillName name fs) →
        ∃ above below, f :: fs = above ++ .opened (.atom given) :: below ∧
          (∀ f ∈ above, f.shape? ≠ some .atom) ∧
          ∀ name, fillName name (f :: fs) = above ++ .opened (.atom (some name)) :: below := by
      intro hf hrest hfill
      obtain ⟨above, below, rfl, habove, hname⟩ := ih hrest
      refine ⟨f :: above, below, rfl, List.forall_mem_cons.mpr ⟨hf, habove⟩, ?_⟩
      intro name
      rw [hfill, hname, List.cons_append]
    cases f with
    | opened o =>
      cases o with
      | atom name' =>
        obtain rfl : name' = given := Option.some.inj h
        exact ⟨[], fs, rfl, by simp, fun _ => rfl⟩
      | _ => exact hcons nofun h fun _ => rfl
    | _ => exact hcons nofun h fun _ => rfl

/-- Naming an atom changes nothing, or it puts the name where the innermost open atom has none. -/
theorem nameAtom_cases (name : String) (b : Builder) :
  after (nameAtom name) b = b ∨
    ∃ above below : List Frame, b.frames = above ++ .opened (.atom none) :: below ∧
      (∀ f ∈ above, f.shape? ≠ some .atom) ∧
      (after (nameAtom name) b).frames =
        above ++ .opened (.atom (some name.toLower)) :: below
  := by
  cases hname : openName? b.frames with
  | none =>
    left
    simp only [after, nameAtom, hname, fail]
  | some given =>
    cases given with
    | some _ =>
      left
      simp only [after, nameAtom, hname, fail]
    | none =>
      right
      obtain ⟨above, below, hframes, habove, hfill⟩ := exists_of_openName? hname
      refine ⟨above, below, hframes, habove, ?_⟩
      simp only [after, nameAtom, hname]
      exact hfill name.toLower

end Builder

namespace Operation

open Builder

/-! ### Single operations -/

theorem failsInPlace_run {op : Operation} (h : ∀ s, op ≠ finish s) :
  FailsInPlace op.run
  := by
  cases op with
  | pushPrimitive name => exact (failsInPlace_push _).bind_pure _
  | pushVariable name => exact (failsInPlace_push _).bind_pure _
  | pushConstant name => exact (failsInPlace_push _).bind_pure _
  | nameAtom name => exact (failsInPlace_nameAtom name).bind_pure _
  | annotate ty => exact (failsInPlace_annotate ty).bind_pure _
  | begin s => exact (failsInPlace_push _).bind_pure _
  | finish s => exact absurd rfl (h s)
  | checkEmpty operation => exact (failsInPlace_checkEmpty operation).bind_pure _
  | takeType => exact (failsInPlace_take _ _ _).bind_pure _
  | takeTypes => exact (failsInPlace_takeAll _).bind_pure _
  | takeConstant => exact ((failsInPlace_take _ _ _).bind_get _).bind_pure _
  | takeConstants => exact ((failsInPlace_takeAll _).bind_get _).bind_pure _
  | takeVariables => exact ((failsInPlace_takeAll _).bind_get _).bind_pure _
  | takePredicate => exact ((failsInPlace_take _ _ _).bind_get _).bind_pure _
  | takeFormula => exact failsInPlace_takeFormula?.bind_pure _

/-- The operation fails for the reason. -/
def FailsWith (op : Operation) (b : Builder) (kind : BuildError.Kind) : Prop :=
  ∃ e, (op.step b).1 = .error e ∧ e.kind = kind

/-- An error of the operation tells the number of frames in front of it. -/
theorem depth_of_step_error {op : Operation} {b : Builder} {e : BuildError}
    (h : (op.step b).1 = .error e) :
  e.depth = b.depth
  := by
  by_cases hfinish : ∃ s, op = finish s
  · obtain ⟨s, rfl⟩ := hfinish
    obtain ⟨kind, -, hfail⟩ | ⟨_, _, _, -, -, ⟨f, -, hok⟩ | ⟨kind, -, herror⟩⟩ := finish_cases s b
    · rw [step_finish, hfail] at h
      cases h
      rfl
    · rw [step_finish, hok] at h
      contradiction
    · rw [step_finish, herror] at h
      cases h
      rfl
  · unfold step at h
    cases hrun : op.run b with
    | ok a b' =>
      rw [hrun] at h
      contradiction
    | error e' b' =>
      rw [hrun] at h
      cases h
      exact (failsInPlace_run (not_exists.mp hfinish) b e b' hrun).1

/-- An operation other than the end of a construct changes nothing when it fails. -/
theorem step_snd_of_error {op : Operation} (hop : ∀ s, op ≠ finish s) {b : Builder} {e : BuildError}
    (h : (op.step b).1 = .error e) :
  (op.step b).2 = b
  := by
  unfold step at h ⊢
  cases hrun : op.run b with
  | ok a b' =>
    rw [hrun] at h
    contradiction
  | error e' b' => exact (failsInPlace_run hop b e' b' hrun).2

/-! ### Ends of constructs -/

/-- What an end comes to where nothing is open, where another construct is the innermost one, and
where its own construct is. -/
theorem step_finish_innermost (s : Shape) (b : Builder) :
  ((∀ f ∈ b.frames, f.isOpen = false) ∧
      (finish s).step b = (.error ⟨.stackUnderflow, s.endLabel, b.depth⟩, b)) ∨
    ∃ above o below, Frame.Innermost b.frames above o below ∧
      (o.shape ≠ s ∧ (finish s).step b =
          (.error ⟨.unbalanced o.shape.openLabel, s.endLabel, b.depth⟩, b) ∨
        o.shape = s ∧
          ((finish s).step b = (.error ⟨.nameless, s.endLabel, b.depth⟩, b) ∨
            (∃ f, f.isOpen = false ∧
              (finish s).step b = (.ok .done, { b with frames := f :: below })) ∨
            ∃ kind, kind.isMisfit ∧ (finish s).step b =
              (.error ⟨kind, s.endLabel, b.depth⟩, { b with frames := below })))
  := by
  obtain hfinished | ⟨above, o, below, h⟩ := Frame.finished_or_exists_innermost b.frames
  · left
    rw [step_finish, finish_of_finished hfinished]
    exact ⟨hfinished, rfl⟩
  · refine .inr ⟨above, o, below, h, ?_⟩
    by_cases hs : o.shape = s
    · right
      refine ⟨hs, ?_⟩
      obtain hfail | ⟨f, hf, hok⟩ | ⟨kind, hkind, herror⟩ := finish_of_shape_eq h hs
      · rw [step_finish, hfail]
        exact .inl rfl
      · rw [step_finish, hok]
        exact .inr (.inl ⟨f, hf, rfl⟩)
      · rw [step_finish, herror]
        exact .inr (.inr ⟨kind, hkind, rfl⟩)
    · left
      rw [step_finish, finish_of_shape_ne h hs]
      exact ⟨hs, rfl⟩

/-- Nothing ends exactly where nothing is open. -/
theorem failsWith_stackUnderflow_iff (s : Shape) (b : Builder) :
  (finish s).FailsWith b .stackUnderflow ↔ ∀ f ∈ b.frames, f.isOpen = false
  := by
  constructor
  · rintro ⟨e, herror, hkind⟩
    obtain ⟨hfinished, -⟩ | ⟨_, _, _, -, ⟨-, h⟩ | ⟨-, h | ⟨f, -, h⟩ | ⟨kind, hmisfit, h⟩⟩⟩ :=
      step_finish_innermost s b
    · exact hfinished
    all_goals
      rw [h] at herror
      cases herror
    · contradiction
    · contradiction
    · subst hkind
      contradiction
  · intro hfinished
    rw [FailsWith, step_finish, finish_of_finished hfinished]
    exact ⟨_, rfl, rfl⟩

/-- Another construct has to end first exactly where it is the innermost one. -/
theorem failsWith_unbalanced_iff (s : Shape) (b : Builder) (found : String) :
  (finish s).FailsWith b (.unbalanced found) ↔
    ∃ above o below, Frame.Innermost b.frames above o below ∧ o.shape ≠ s ∧
      found = o.shape.openLabel
  := by
  constructor
  · rintro ⟨e, herror, hkind⟩
    obtain ⟨-, h⟩ | ⟨above, o, below, hinnermost, ⟨hs, h⟩ |
      ⟨-, h | ⟨f, -, h⟩ | ⟨kind, hmisfit, h⟩⟩⟩ := step_finish_innermost s b
    all_goals
      rw [h] at herror
      cases herror
    · contradiction
    · cases hkind
      exact ⟨above, o, below, hinnermost, hs, rfl⟩
    · contradiction
    · subst hkind
      contradiction
  · rintro ⟨above, o, below, hinnermost, hs, rfl⟩
    rw [FailsWith, step_finish, finish_of_shape_ne hinnermost hs]
    exact ⟨_, rfl, rfl⟩

/-- An end that fails changes nothing, or the frames of its construct do not fit together, and these
are removed together with its opening. -/
theorem step_snd_of_failsWith {s : Shape} {b : Builder} {kind : BuildError.Kind}
    (h : (finish s).FailsWith b kind) :
  (kind.isMisfit = false → ((finish s).step b).2 = b) ∧
  (kind.isMisfit → ∃ above o below, Frame.Innermost b.frames above o below ∧ o.shape = s ∧
    ((finish s).step b).2 = { b with frames := below })
  := by
  obtain ⟨e, herror, rfl⟩ := h
  obtain ⟨-, h⟩ | ⟨above, o, below, hinnermost, ⟨-, h⟩ |
    ⟨hs, h | ⟨f, -, h⟩ | ⟨kind, hmisfit, h⟩⟩⟩ := step_finish_innermost s b
  case inr.inr.inr.inl =>
    rw [h] at herror
    contradiction
  all_goals
    rw [h] at herror
    cases herror
    rw [h]
  · exact ⟨fun _ => rfl, nofun⟩
  · exact ⟨fun _ => rfl, nofun⟩
  · exact ⟨fun _ => rfl, nofun⟩
  · constructor
    · intro hfit
      rw [hmisfit] at hfit
      contradiction
    · exact fun _ => ⟨above, o, below, hinnermost, hs, rfl⟩

/-- An end that goes well puts a finished frame where its opening and the frames above it were. -/
theorem step_snd_of_ok {s : Shape} {b : Builder} {a : Answer}
    (h : ((finish s).step b).1 = .ok a) :
  ∃ above o below f, Frame.Innermost b.frames above o below ∧ o.shape = s ∧ f.isOpen = false ∧
    ((finish s).step b).2 = { b with frames := f :: below }
  := by
  obtain ⟨-, hstep⟩ | ⟨above, o, below, hinnermost, ⟨-, hstep⟩ |
    ⟨hs, hstep | ⟨f, hf, hstep⟩ | ⟨kind, -, hstep⟩⟩⟩ := step_finish_innermost s b
  case inr.inr.inr.inl => exact ⟨above, o, below, f, hinnermost, hs, hf, by rw [hstep]⟩
  all_goals
    rw [hstep] at h
    contradiction

/-! ### What is below the innermost opening -/

/-- No operation touches what is below the innermost opening, but the name of an atom is put where
the innermost atom has been begun. -/
theorem frames_step_below (op : Operation) {b : Builder} {above below : List Frame} {o : Opening}
    (h : Frame.Innermost b.frames above o below) :
  (∃ top, (op.step b).2.frames = top ++ below) ∨
    ∃ name, ∃ front back : List Frame, op = nameAtom name ∧
      b.frames = front ++ .opened (.atom none) :: back ∧
      (∀ f ∈ front, f.shape? ≠ some .atom) ∧
      (op.step b).2.frames = front ++ .opened (.atom (some name.toLower)) :: back
  := by
  have hunchanged : ∃ top, b.frames = top ++ below := by
    refine ⟨above ++ [Frame.opened o], ?_⟩
    rw [h.frames_eq, List.append_assoc, List.singleton_append]
  by_cases hname : ∃ name, op = nameAtom name
  · obtain ⟨name, rfl⟩ := hname
    rw [step_snd, run, after_bind_pure (Builder.nameAtom name)]
    obtain hsame | ⟨front, back, hframes, hfront, hafter⟩ := nameAtom_cases name b
    · rw [hsame]
      exact .inl hunchanged
    · exact .inr ⟨name, front, back, rfl, hframes, hfront, hafter⟩
  · left
    cases op with
    | begin s =>
      obtain ⟨top, htop⟩ := hunchanged
      refine ⟨.opened (.ofShape s) :: top, ?_⟩
      rw [List.cons_append, ← htop]
      rfl
    | finish s =>
      obtain ⟨-, hstep⟩ | ⟨above', o', below', h', hends⟩ := step_finish_innermost s b
      · rw [hstep]
        exact hunchanged
      · obtain ⟨-, rfl⟩ : Frame.opened o' = .opened o ∧ below' = below := by
          rw [← List.cons_eq_cons, ← h'.fromOpening_eq, h.fromOpening_eq]
        obtain ⟨-, hstep⟩ | ⟨-, hstep | ⟨f, -, hstep⟩ | ⟨kind, -, hstep⟩⟩ := hends
        · rw [hstep]
          exact hunchanged
        · rw [hstep]
          exact hunchanged
        · rw [hstep]
          exact ⟨[f], rfl⟩
        · rw [hstep]
          exact ⟨[], rfl⟩
    | _ =>
      have hkeeps := keepsBelow_run rfl (not_exists.mp hname) b
      rw [← step_snd, h.fromOpening_eq] at hkeeps
      obtain ⟨top, htop⟩ := Frame.exists_innermost_of_fromOpening hkeeps
      refine ⟨top ++ [Frame.opened o], ?_⟩
      rw [htop.frames_eq, List.append_assoc, List.singleton_append]

/-- An operation that fails tells the number of frames in front of it, and unless it is the end of a
construct it changes nothing.  An end fails because of a missing opening exactly where nothing is
open, and because of another opening exactly where this is the innermost one; it then changes
nothing, as where the name of an atom is missing.  If the frames of its construct do not fit
together, it removes them and its opening, which are the innermost one and the frames above it, and
if it goes well it puts one finished frame there.  No operation, whether it fails or not, touches
what is below the innermost opening, except that the name of an atom is put where the innermost open
atom has none. -/
theorem step_frames (op : Operation) (b : Builder) :
  (∀ e, (op.step b).1 = .error e →
    e.depth = b.depth ∧ ((∀ s, op ≠ finish s) → (op.step b).2 = b)) ∧
  (∀ s,
    ((finish s).FailsWith b .stackUnderflow ↔ ∀ f ∈ b.frames, f.isOpen = false) ∧
    (∀ found, (finish s).FailsWith b (.unbalanced found) ↔
      ∃ above o below, Frame.Innermost b.frames above o below ∧ o.shape ≠ s ∧
        found = o.shape.openLabel) ∧
    (∀ kind, (finish s).FailsWith b kind →
      (kind.isMisfit = false → ((finish s).step b).2 = b) ∧
      (kind.isMisfit → ∃ above o below, Frame.Innermost b.frames above o below ∧ o.shape = s ∧
        ((finish s).step b).2 = { b with frames := below })) ∧
    ∀ a, ((finish s).step b).1 = .ok a → ∃ above o below f,
      Frame.Innermost b.frames above o below ∧ o.shape = s ∧ f.isOpen = false ∧
        ((finish s).step b).2 = { b with frames := f :: below }) ∧
  ∀ above o below, Frame.Innermost b.frames above o below →
    (∃ top, (op.step b).2.frames = top ++ below) ∨
      ∃ name, ∃ front back : List Frame, op = nameAtom name ∧
        b.frames = front ++ .opened (.atom none) :: back ∧
        (∀ f ∈ front, f.shape? ≠ some .atom) ∧
        (op.step b).2.frames = front ++ .opened (.atom (some name.toLower)) :: back
  := by
  refine ⟨?_, ?_, ?_⟩
  · intro e herror
    exact ⟨depth_of_step_error herror, fun hop => step_snd_of_error hop herror⟩
  · intro s
    refine ⟨failsWith_stackUnderflow_iff s b, failsWith_unbalanced_iff s b, ?_, ?_⟩
    · exact fun kind h => step_snd_of_failsWith h
    · exact fun a h => step_snd_of_ok h
  · exact fun above o below h => frames_step_below op h

/-- The end of an equality with one side removes the side, and that of a negation changes nothing.
A name goes to the atom although a negation has been begun in it. -/
theorem step_frames_equality :
  let b := runAll (.new none) [begin .conjunction, begin .equality, pushConstant "a"]
  let atom := runAll (.new none) [begin .atom, begin .negation]
  (∃ e, ((finish .equality).step b).1 = .error e ∧ e.depth = 3) ∧
  ((finish .equality).step b).2 = { b with frames := [.opened .conjunction] } ∧
  (finish .negation).FailsWith b (.unbalanced "open =") ∧
  ((finish .negation).step b).2 = b ∧
  ((∃ top : List Frame, ((nameAtom "On").step atom).2.frames = top ++ [.opened (.atom none)]) ∨
    ∃ name, ∃ front back : List Frame, nameAtom "On" = nameAtom name ∧
      atom.frames = front ++ .opened (.atom none) :: back ∧
      (∀ f ∈ front, f.shape? ≠ some .atom) ∧
      ((nameAtom "On").step atom).2.frames =
        front ++ .opened (.atom (some name.toLower)) :: back)
  := by
  intro b atom
  have hframes : b.frames =
      [.term (.const (Constant.ofName "a")), .opened .equality, .opened .conjunction] := rfl
  have hinnermost : Frame.Innermost b.frames [.term (.const (Constant.ofName "a"))] .equality
      [.opened .conjunction] := ⟨hframes, by simp [Frame.isOpen]⟩
  have herror : ((finish .equality).step b).1 =
      .error ⟨.arity "exactly two terms" 1, "end_equals", 3⟩ := rfl
  obtain ⟨hdepth, hends, -⟩ := step_frames (finish .equality) b
  obtain ⟨-, -, hfails, -⟩ := hends .equality
  obtain ⟨-, hunbalanced, hfailsOther, -⟩ := hends .negation
  have hother : (finish .negation).FailsWith b (.unbalanced "open =") :=
    (hunbalanced "open =").mpr ⟨_, _, _, hinnermost, by decide, rfl⟩
  refine ⟨⟨_, herror, (hdepth _ herror).1⟩, ?_, hother, (hfailsOther _ hother).1 rfl, ?_⟩
  · obtain ⟨above, o, below, h, -, hafter⟩ := (hfails _ ⟨_, herror, rfl⟩).2 rfl
    have hbelow : Frame.opened o :: below = [.opened .equality, .opened .conjunction] := by
      rw [← h.fromOpening_eq, hinnermost.fromOpening_eq]
    rw [hafter, (List.cons_eq_cons.mp hbelow).2]
  · exact (step_frames (nameAtom "On") atom).2.2 [] .negation [.opened (.atom none)]
      ⟨rfl, by simp⟩

end Operation

end PlanLang
