import Mathlib
import PlanLang.Builder

/-!
# The parts of finished constructs

An opening and its parts make up a finished frame if the parts are of the right kinds and numbers.
What they make up is a relation with one case for each construct, which the assembling of parts
decides.  The frames that are taken from the top of a builder are found by the same views.
-/

namespace PlanLang

/-! ### Views of frames -/

namespace Frame

variable {f : Frame}

theorem ty?_eq_some_iff {t : Ty} :
  f.ty? = some t ↔ f = .ty t
  := by
  cases f <;> simp [ty?]

theorem term?_eq_some_iff {t : Term} :
  f.term? = some t ↔ f = .term t
  := by
  cases f <;> simp [term?]

theorem var?_eq_some_iff {v : Variable} :
  f.var? = some v ↔ f = .term (.var v)
  := by
  unfold var?
  split <;> simp_all

theorem const?_eq_some_iff {c : Constant} :
  f.const? = some c ↔ f = .term (.const c)
  := by
  unfold const?
  split <;> simp_all

theorem atom?_eq_some_iff {a : Atom} :
  f.atom? = some a ↔ f = .atom a
  := by
  cases f <;> simp [atom?]

/-- If a view finds something in every frame, and each thing in one frame only, then the frames are
those of what is found. -/
theorem map_view_eq_iff {α : Type} {view : Frame → Option α} {frame : α → Frame}
    (hview : ∀ f a, view f = some a ↔ f = frame a) {fs : List Frame} {as : List α} :
  fs.map view = as.map some ↔ fs = as.map frame
  := by
  induction fs generalizing as with
  | nil => cases as <;> simp
  | cons f fs ih =>
    cases as with
    | nil => simp
    | cons a as => simp [hview, ih]

theorem map_ty?_eq_iff {fs : List Frame} {ts : List Ty} :
  fs.map ty? = ts.map some ↔ fs = ts.map .ty
  := map_view_eq_iff fun _ _ => ty?_eq_some_iff

theorem map_term?_eq_iff {fs : List Frame} {ts : List Term} :
  fs.map term? = ts.map some ↔ fs = ts.map .term
  := map_view_eq_iff fun _ _ => term?_eq_some_iff

theorem map_var?_eq_iff {fs : List Frame} {vs : List Variable} :
  fs.map var? = vs.map some ↔ fs = vs.map (.term <| .var ·)
  := map_view_eq_iff fun _ _ => var?_eq_some_iff

end Frame

namespace Opening

open BuildError

/-! ### Collecting parts -/

section

variable {α : Type} {expected : String} {view : Frame → Option α}

theorem collect_cons (p : Frame) (parts : List Frame) :
  collect expected view (p :: parts) =
    match view p with
    | none => .error (.mismatch expected p.label)
    | some a => (collect expected view parts).map (a :: ·)
  := by
  rw [collect, List.mapM_cons]
  cases view p with
  | none => rfl
  | some a => cases h : collect expected view parts <;> rw [collect] at h <;> rw [h] <;> rfl

/-- Parts are collected if something is found in each of them. -/
theorem collect_eq_ok_iff {parts : List Frame} {as : List α} :
  collect expected view parts = .ok as ↔ parts.map view = as.map some
  := by
  induction parts generalizing as with
  | nil => cases as <;> simp [collect, pure, Except.pure]
  | cons p parts ih =>
    rw [collect_cons, List.map_cons]
    cases view p with
    | none => cases as <;> simp
    | some a =>
      cases as with
      | nil => cases collect expected view parts <;> simp [Except.map]
      | cons b bs =>
        rw [List.map_cons, List.cons.injEq, ← ih]
        cases collect expected view parts <;> simp [Except.map]

theorem collect_bind_eq_ok_iff {parts : List Frame} {g : List α → Except Kind Frame} {f : Frame} :
  collect expected view parts >>= g = .ok f ↔
    ∃ as, parts.map view = as.map some ∧ g as = .ok f
  := by
  have hparts : ∀ as, parts.map view = as.map some ↔ collect expected view parts = .ok as :=
    fun as => collect_eq_ok_iff.symm
  simp only [hparts]
  cases collect expected view parts <;> simp [bind, Except.bind]

end

/-! ### Assembling parts -/

/-- The finished frame that an opening and its parts, in order, make up.  Bound variables without a
type get the type `T`, if there is one. -/
inductive Assembles (T : Option Ty) : Opening → List Frame → Frame → Prop where
  | either (t : Ty) (ts : List Ty) :
    Assembles T .either ((t :: ts).map .ty) (.ty (ts.foldl .union t))
  | atom (name : String) (ts : List Term) :
    Assembles T (.atom (some name)) (ts.map .term) (.atom ⟨name, ts⟩)
  | negation {p : Frame} {f : Formula} (hp : p.formula? = some f) :
    Assembles T .negation [p] (.formula (.negation f))
  | conjunction {ps : List Frame} {fs : List Formula}
    (hps : ps.map Frame.formula? = fs.map some) :
    Assembles T .conjunction ps (.formula (.conjunction fs))
  | equality (l r : Term) :
    Assembles T .equality [.term l, .term r] (.formula (.equality l r))
  | universal (vs : List Variable) {p : Frame} {f : Formula} (hp : p.formula? = some f) :
    Assembles T .universal (vs.map (.term <| .var ·) ++ [p])
      (.formula (.universal (vs.map (Variable.withDefault T)) f))
  | conditional {p q : Frame} {c e : Formula} (hp : p.formula? = some c)
    (hq : q.formula? = some e) :
    Assembles T .conditional [p, q] (.formula (.conditional c e))

variable {T : Option Ty} {o : Opening} {parts : List Frame} {f : Frame}

theorem Assembles.of_assemble (h : o.assemble T parts = .ok f) :
  Assembles T o parts f
  := by
  cases o with
  | either =>
    obtain ⟨ts, hparts, hts⟩ := collect_bind_eq_ok_iff.mp h
    rw [Frame.map_ty?_eq_iff] at hparts
    subst hparts
    cases ts with
    | nil => contradiction
    | cons t ts =>
      cases hts
      exact .either t ts
  | atom name =>
    cases name with
    | none => contradiction
    | some name =>
      obtain ⟨ts, hparts, hts⟩ := collect_bind_eq_ok_iff.mp h
      rw [Frame.map_term?_eq_iff] at hparts
      subst hparts
      cases hts
      exact .atom name ts
  | negation =>
    obtain ⟨fs, hparts, hfs⟩ := collect_bind_eq_ok_iff.mp h
    split at hfs
    · cases hfs
      obtain ⟨p, rfl, hp⟩ := List.map_eq_singleton_iff.mp hparts
      exact .negation hp
    · contradiction
  | conjunction =>
    obtain ⟨fs, hparts, hfs⟩ := collect_bind_eq_ok_iff.mp h
    cases hfs
    exact .conjunction hparts
  | equality =>
    change assembleEquality parts = .ok f at h
    unfold assembleEquality at h
    split at h
    · contradiction
    · obtain ⟨ts, hparts, hts⟩ := collect_bind_eq_ok_iff.mp h
      rw [Frame.map_term?_eq_iff] at hparts
      subst hparts
      split at hts
      · cases hts
        exact .equality _ _
      · contradiction
  | universal =>
    change assembleUniversal T parts = .ok f at h
    simp only [assembleUniversal] at h
    split at h
    · contradiction
    · rename_i last hlast
      split at h
      · contradiction
      · split at h
        · contradiction
        · rename_i body hbody
          obtain ⟨vs, hparts, hvs⟩ := collect_bind_eq_ok_iff.mp h
          rw [Frame.map_var?_eq_iff] at hparts
          cases hvs
          rw [← List.dropLast_append_getLast? last hlast, hparts]
          exact .universal vs hbody
  | conditional =>
    obtain ⟨fs, hparts, hfs⟩ := collect_bind_eq_ok_iff.mp h
    split at hfs
    · cases hfs
      obtain ⟨p, ps, rfl, hp, hps⟩ := List.map_eq_cons_iff.mp hparts
      obtain ⟨q, rfl, hq⟩ := List.map_eq_singleton_iff.mp hps
      exact .conditional hp hq
    · contradiction

/-- Variables and a formula after them make up a universal formula. -/
theorem assembleUniversal_eq (vs : List Variable) {p : Frame} {g : Formula}
    (hp : p.formula? = some g) :
  assembleUniversal T (vs.map (.term <| .var ·) ++ [p])
    = .ok (.formula (.universal (vs.map (Variable.withDefault T)) g))
  := by
  have hone : (vs.map (Frame.term <| .var ·) ++ [p]).filter (fun part => part.formula?.isSome)
      = [p] := by
    have hnone : ∀ part ∈ vs.map (Frame.term <| .var ·), ¬ part.formula?.isSome = true := by
      simp [Frame.formula?]
    rw [List.filter_append, List.filter_eq_nil_iff.mpr hnone]
    simp [hp]
  have hbound : collect "variable" Frame.var? (vs.map (Frame.term <| .var ·)) = .ok vs :=
    collect_eq_ok_iff.mpr (Frame.map_var?_eq_iff.mpr rfl)
  simp only [assembleUniversal, hone, List.getLast?_concat, List.dropLast_concat, hbound, hp]
  rfl

theorem Assembles.assemble_eq (h : Assembles T o parts f) :
  o.assemble T parts = .ok f
  := by
  cases h with
  | either t ts =>
    exact collect_bind_eq_ok_iff.mpr ⟨t :: ts, Frame.map_ty?_eq_iff.mpr rfl, rfl⟩
  | atom name ts =>
    exact collect_bind_eq_ok_iff.mpr ⟨ts, Frame.map_term?_eq_iff.mpr rfl, rfl⟩
  | negation hp => exact collect_bind_eq_ok_iff.mpr ⟨[_], by rw [List.map_singleton, hp]; rfl, rfl⟩
  | conjunction hps => exact collect_bind_eq_ok_iff.mpr ⟨_, hps, rfl⟩
  | equality l r => rfl
  | universal vs hp => exact assembleUniversal_eq vs hp
  | conditional hp hq => exact collect_bind_eq_ok_iff.mpr ⟨[_, _], by simp [hp, hq], rfl⟩

/-- Parts fit together exactly where they make up a finished frame. -/
theorem assemble_eq_ok_iff :
  o.assemble T parts = .ok f ↔ Assembles T o parts f
  := ⟨.of_assemble, Assembles.assemble_eq⟩

end Opening

/-! ### Taking finished frames -/

namespace Builder

variable {α : Type} {T : Option Ty} {fs : List Frame} {a : α} {b' : Builder}

theorem take_eq_ok_iff {operation expected : String} {view : Frame → Option α} :
  take operation expected view ⟨T, fs⟩ = .ok a b' ↔
    ∃ f below, fs = f :: below ∧ view f = some a ∧ b' = ⟨T, below⟩
  := by
  cases fs with
  | nil => simp [take, fail]
  | cons f fs =>
    simp only [take]
    cases hf : view f with
    | none => simp [fail, hf]
    | some a' => simp [hf, eq_comm]

/-- The two parts of a list that a condition cuts it into. -/
theorem takeWhile_and_dropWhile_iff {β : Type} (p : β → Bool) (xs : List β) {front back : List β} :
  xs.takeWhile p = front ∧ xs.dropWhile p = back ↔
    xs = front ++ back ∧ (∀ x ∈ front, p x) ∧ ∀ x ∈ back.head?, p x = false
  := by
  constructor
  · rintro ⟨rfl, rfl⟩
    refine ⟨List.takeWhile_append_dropWhile.symm, fun x => List.mem_takeWhile_imp, ?_⟩
    intro x hx
    have hhead := List.head?_dropWhile_not p xs
    rwa [Option.mem_def.mp hx] at hhead
  · rintro ⟨rfl, hfront, hback⟩
    rw [List.takeWhile_append_of_pos hfront, List.dropWhile_append_of_pos hfront]
    cases back with
    | nil => simp
    | cons x xs =>
      have hx : p x = false := hback x rfl
      simp [hx]

/-- What a view finds in frames in each of which it finds something. -/
theorem isSome_and_filterMap_iff {view : Frame → Option α} {frames : List Frame} {as : List α} :
  (∀ f ∈ frames, (view f).isSome) ∧ frames.filterMap view = as ↔ frames.map view = as.map some
  := by
  induction frames generalizing as with
  | nil => cases as <;> simp
  | cons f frames ih =>
    cases hf : view f with
    | none => cases as <;> simp [hf]
    | some a =>
      cases as with
      | nil => simp [hf]
      | cons a' as => simp [hf, ← ih, and_left_comm]

/-- All frames on top in which something is found are taken. -/
theorem takeAll_eq_ok_iff {view : Frame → Option α} {frame : α → Frame}
    (hview : ∀ f a, view f = some a ↔ f = frame a) {as : List α} :
  takeAll view ⟨T, fs⟩ = .ok as b' ↔
    ∃ below, fs = (as.map frame).reverse ++ below ∧ (∀ f ∈ below.head?, view f = none) ∧
      b' = ⟨T, below⟩
  := by
  constructor
  · intro h
    obtain ⟨hfs, hfront, hback⟩ :=
      (takeWhile_and_dropWhile_iff (fun f => (view f).isSome) fs).mp ⟨rfl, rfl⟩
    obtain ⟨rfl, rfl⟩ : _ = as ∧ _ = b' := EStateM.Result.ok.inj h
    have hall : ∀ f ∈ (fs.takeWhile fun f => (view f).isSome).reverse, (view f).isSome := by
      simpa using hfront
    have hmap := isSome_and_filterMap_iff.mp ⟨hall, rfl⟩
    rw [Frame.map_view_eq_iff hview] at hmap
    refine ⟨_, ?_, ?_, rfl⟩
    · rw [← hmap, List.reverse_reverse]
      exact hfs
    · simpa using hback
  · rintro ⟨below, hfs, hbelow, rfl⟩
    have hmap : (as.map frame).map view = as.map some := (Frame.map_view_eq_iff hview).mpr rfl
    obtain ⟨hall, hvalues⟩ := isSome_and_filterMap_iff.mpr hmap
    obtain ⟨htake, hdrop⟩ := (takeWhile_and_dropWhile_iff (fun f => (view f).isSome) fs).mpr
      ⟨hfs, by simpa using hall, by simpa using hbelow⟩
    simp only [takeAll, htake, hdrop, List.reverse_reverse, hvalues]

end Builder

end PlanLang
